import Mathlib.Algebra.Order.BigOperators.Group.List
import Mathlib.Algebra.Order.Group.Nat
import Mathlib.Algebra.Order.Ring.Int
import Mathlib.Data.List.Basic
import Mathlib.Tactic.Common

/-! Machine integers, flags and strings as the server's C sources use them. -/

namespace FileStorage

abbrev Bytes := List UInt8

/-- A C string: its bytes before the terminating NUL. -/
abbrev Path := List UInt8

instance : LawfulBEq Path := inferInstance

/-- `MAX_PATH`. -/
def maxPath : Nat := 1024

/-! ### `size_t` and `int` -/

def sizeBound : Nat := 2 ^ 64

def sizeAdd (a b : Nat) : Nat := (a + b) % sizeBound

def sizeSub (a b : Nat) : Nat := (a + (sizeBound - b % sizeBound)) % sizeBound

theorem sizeAdd_of_lt {a b : Nat} (h : a + b < sizeBound) : sizeAdd a b = a + b :=
  Nat.mod_eq_of_lt h

theorem sizeSub_of_le {a b : Nat} (ha : a < sizeBound) (h : b ≤ a) : sizeSub a b = a - b := by
  have hb : b % sizeBound = b := Nat.mod_eq_of_lt (by omega)
  have he : a + (sizeBound - b) = (a - b) + sizeBound := by omega
  rw [sizeSub, hb, he, Nat.add_mod_right]
  exact Nat.mod_eq_of_lt (by omega)

theorem sizeAdd_lt (a b : Nat) : sizeAdd a b < sizeBound := Nat.mod_lt _ (by decide)

theorem sizeSub_lt (a b : Nat) : sizeSub a b < sizeBound := Nat.mod_lt _ (by decide)

/-- Conversion of an integer to `int`. -/
def toInt (n : Int) : Int := n.bmod (2 ^ 32)

/-- The `int` at the head of a buffer; `none` when the buffer is shorter than an `int`. -/
def readInt : Bytes → Option (BitVec 32)
  | a :: b :: c :: d :: _ => some (d.toBitVec ++ c.toBitVec ++ b.toBitVec ++ a.toBitVec)
  | _ => none

/-! ### Flags -/

abbrev Flags := BitVec 32

def oNoflag : Flags := 0x1#32
def oCreate : Flags := 0x2#32
def oLock : Flags := 0x4#32

def setFlag (n f : Flags) : Flags := n ||| f
def clrFlag (n f : Flags) : Flags := n &&& ~~~f
def chkFlag (n f : Flags) : Bool := n &&& f != 0#32

theorem chkFlag_setFlag_of_disjoint {n f g : Flags} (h : f &&& g = 0#32) :
    chkFlag (setFlag n f) g = chkFlag n g := by
  have he : (n ||| f) &&& g = n &&& g := by
    have hd : (n ||| f) &&& g = n &&& g ||| f &&& g := by
      apply BitVec.eq_of_getLsbD_eq
      intro i _
      simp only [BitVec.getLsbD_and, BitVec.getLsbD_or, Bool.and_or_distrib_right]
    rw [hd, h, BitVec.or_zero]
  rw [chkFlag, setFlag, he, chkFlag]

theorem chkFlag_clrFlag_of_disjoint {n f g : Flags} (h : f &&& g = 0#32) :
    chkFlag (clrFlag n f) g = chkFlag n g := by
  have he : n &&& ~~~f &&& g = n &&& g := by
    apply BitVec.eq_of_getLsbD_eq
    intro i hi
    have hb : (f &&& g).getLsbD i = false := by rw [h]; simp
    simp only [BitVec.getLsbD_and] at hb
    simp only [BitVec.getLsbD_and, BitVec.getLsbD_not, hi, decide_true, Bool.true_and]
    cases hf : f.getLsbD i <;> simp_all
  rw [chkFlag, clrFlag, he, chkFlag]

@[simp] theorem chkFlag_setFlag_oLock (n : Flags) : chkFlag (setFlag n oLock) oLock = true := by
  have h : (setFlag n oLock &&& oLock).getLsbD 2 = true := by
    simp [setFlag, oLock]
  have hne : setFlag n oLock &&& oLock ≠ 0#32 := by
    intro he
    rw [he] at h
    simp at h
  simpa [chkFlag] using hne

theorem chkFlag_clrFlag_self (n f : Flags) : chkFlag (clrFlag n f) f = false := by
  have he : n &&& ~~~f &&& f = 0#32 := by
    apply BitVec.eq_of_getLsbD_eq
    intro i hi
    simp [hi]
  simp [chkFlag, clrFlag, he]

@[simp] theorem chkFlag_clrFlag_oLock (n : Flags) : chkFlag (clrFlag n oLock) oLock = false :=
  chkFlag_clrFlag_self n oLock

@[simp] theorem chkFlag_clrFlag_oCreate (n : Flags) :
    chkFlag (clrFlag n oCreate) oCreate = false :=
  chkFlag_clrFlag_self n oCreate

@[simp] theorem chkFlag_setFlag_oLock_oCreate (n : Flags) :
    chkFlag (setFlag n oLock) oCreate = chkFlag n oCreate :=
  chkFlag_setFlag_of_disjoint (by decide)

@[simp] theorem chkFlag_clrFlag_oLock_oCreate (n : Flags) :
    chkFlag (clrFlag n oLock) oCreate = chkFlag n oCreate :=
  chkFlag_clrFlag_of_disjoint (by decide)

@[simp] theorem chkFlag_clrFlag_oCreate_oLock (n : Flags) :
    chkFlag (clrFlag n oCreate) oLock = chkFlag n oLock :=
  chkFlag_clrFlag_of_disjoint (by decide)

/-! ### Strings -/

/-- `HIGH_BITS`. -/
def highBits : UInt64 := 0xF0000000

/-- One round of the loop of `string_hash`; `char` is signed. -/
def stringHashStep (hashValue : UInt64) (datum : UInt8) : UInt64 :=
  let h := (hashValue <<< 4) + UInt64.ofBitVec (datum.toBitVec.signExtend 64)
  let i := h &&& highBits
  if i ≠ 0 then (h ^^^ (i >>> 24)) &&& 0x0FFFFFFF else h

def stringHash (key : Path) : Nat := (key.foldl stringHashStep 0).toNat

example : stringHash [0x2f, 0x61] = 0x351 := by decide

end FileStorage
