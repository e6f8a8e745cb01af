import FileStorage.Utilities

/-! Requests and responses of the client-server protocol. -/

namespace FileStorage

inductive RequestCode where
  | openConnection
  | closeConnection
  | openFile
  | closeFile
  | writeFile
  | readFile
  | readNFiles
  | removeFile
  | lockFile
  | unlockFile
  | appendToFile
  deriving DecidableEq, Repr

inductive ResponseCode where
  | success
  | accepted
  | internalError
  | badRequest
  | notFound
  | unauthorized
  | missingBody
  | fileTooBig
  | filesExpelled
  | fileExists
  | awaiting
  | noMoreCon
  deriving DecidableEq, Repr

/-- A request as `recv_request` delivers it. `filePath` is the buffer of `path_len` bytes and
`body` that of `body_size` bytes; a buffer of length 0 is the NULL pointer. -/
structure Request where
  type : RequestCode
  filePath : Bytes
  body : Bytes
  deriving DecidableEq

/-- What `send_response` writes on a socket. The status phrase is a function of the status. -/
structure Response where
  status : ResponseCode
  filePath : Bytes
  body : Bytes
  deriving DecidableEq

/-- The bytes of an `int` in memory. -/
def intBytes (n : Int) : Bytes :=
  let b := BitVec.ofInt 32 n
  [UInt8.ofBitVec (b.extractLsb' 0 8), UInt8.ofBitVec (b.extractLsb' 8 8),
    UInt8.ofBitVec (b.extractLsb' 16 8), UInt8.ofBitVec (b.extractLsb' 24 8)]

/-- The bytes of a C string with its terminating NUL. -/
def stringBytes (p : Path) : Bytes := p ++ [0]

end FileStorage
