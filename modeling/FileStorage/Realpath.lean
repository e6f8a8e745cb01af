import FileStorage.OpenedFiles

/-! The functions of the API with `realpath` and `recv_response` that may return NULL. -/

namespace FileStorage

open Dialogue

/-- The calls of the API on files, each with what `realpath` returns in it. -/
inductive ApiCall where
  | readFile (pathname absolutePath : Option Path)
  | readNFiles (N : Int) (dirname : Option Path)
  | writeFile (pathname absolutePath dirname : Option Path)
  | appendToFile (pathname absolutePath : Option Path) (buf : Option Bytes) (dirname : Option Path)
  | lockFile (pathname absolutePath : Option Path)
  | unlockFile (pathname absolutePath : Option Path)
  | removeFile (pathname absolutePath : Option Path)
  | closeFile (pathname absolutePath : Option Path)

namespace ApiCall

def program : ApiCall → ClientM Int
  | readFile pathname absolutePath => Realpath.readFile pathname absolutePath
  | readNFiles N dirname => Realpath.readNFiles N dirname
  | writeFile pathname absolutePath dirname => Realpath.writeFile pathname absolutePath dirname
  | appendToFile pathname absolutePath buf dirname =>
    Realpath.appendToFile pathname absolutePath buf dirname
  | lockFile pathname absolutePath => Realpath.lockFile pathname absolutePath
  | unlockFile pathname absolutePath => Realpath.unlockFile pathname absolutePath
  | removeFile pathname absolutePath => Realpath.removeFile pathname absolutePath
  | closeFile pathname absolutePath => Realpath.closeFile pathname absolutePath

/-- `readNFiles` does not call `realpath`. -/
def absolutePath : ApiCall → Option (Option Path)
  | readNFiles _ _ => none
  | readFile _ absolutePath | writeFile _ absolutePath _ | appendToFile _ absolutePath _ _
  | lockFile _ absolutePath | unlockFile _ absolutePath | removeFile _ absolutePath
  | closeFile _ absolutePath => some absolutePath

/-- The response that the outcome of the call rests on. -/
def verdict : ApiCall → List Response → Option Response
  | readNFiles _ _, received => received.head?
  | _, received => received.getLast?

end ApiCall

/-! ### What is around a call -/

/-- What the functions outside the API return, one call after the other; where nothing is left, the
connection is lost. At its end `recv_response` may also build a `SUCCESS` out of zeroed bytes, which
is then one of the responses. The signal of a write to a closed connection is left out. -/
structure Outside where
  sends : List (Except Errno Unit)
  responses : List (Except Errno Response)
  disk : Except Errno Bytes
  directory : Bool
  indeterminate : List Int

/-- Whether one of them has failed, and the responses that have come. -/
structure Seen where
  failed : Bool
  received : List Response

namespace Outside

def sent (o : Outside) : Except Errno Unit := o.sends.headD (.error (.system 32))

def response (o : Outside) : Except Errno Response := o.responses.headD (.error (.system 104))

def afterSend (o : Outside) : Outside := { o with sends := o.sends.tail }

def afterResponse (o : Outside) : Outside := { o with responses := o.responses.tail }

def afterIndeterminate (o : Outside) : Outside := { o with indeterminate := o.indeterminate.tail }

end Outside

namespace Seen

def init : Seen := ⟨false, []⟩

def fails (seen : Seen) : Seen := { seen with failed := true }

def receives (seen : Seen) (response : Response) : Seen :=
  { seen with received := seen.received ++ [response] }

/-- After a call that returns `x`. -/
def after {α : Type} (seen : Seen) : Except Errno α → Seen
  | .error _ => seen.fails
  | .ok _ => seen

end Seen

/-- Every allocation succeeds. -/
def answer : (q : Question) → Outside × Seen → Option (q.Answer × Outside × Seen)
  | .sendRequest _, (o, seen) => some (o.sent, o.afterSend, seen.after o.sent)
  | .recvResponse, (o, seen) =>
    match o.response with
    | .error e => some (.error e, o.afterResponse, seen.fails)
    | .ok response => some (.ok response, o.afterResponse, seen.receives response)
  | .readDisk _, (o, seen) => some (o.disk, o, seen.after o.disk)
  | .mkdirP _, (o, seen) => some (o.directory, o, if o.directory then seen else seen.fails)
  | .indeterminate, (o, seen) => some (o.indeterminate.headD 0, o.afterIndeterminate, seen)
  | .alloc, u => some (true, u)
  | .note _, u => some ((), u)
  -- the functions on files ask nothing else
  | _, _ => none

/-- The call could do what it was called for. -/
def ApiCall.Completed (call : ApiCall) (seen : Seen) : Prop :=
  call.absolutePath ≠ some none ∧ seen.failed = false ∧
    ∃ response, call.verdict seen.received = some response ∧ response.status = .success

/-- What a call may return, after what has been seen. -/
def ApiCall.Honest (call : ApiCall) (result : Int) (_ : Client) (u : Outside × Seen) : Prop :=
  ¬call.Completed u.2 → result = -1

/-- The call follows no NULL pointer, and returns -1 where it could not complete. -/
def ApiCall.Survives (call : ApiCall) (c : Client) (o : Outside) : Prop :=
  call.program.Meets answer call.Honest c (o, .init)

end FileStorage
