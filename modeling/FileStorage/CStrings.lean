import FileStorage.Utilities
import Mathlib.Data.List.DropRight
import Mathlib.Data.List.TakeWhile

/-! The functions of the C library on strings that the parsers of the client and of the server
use. A string is its bytes before the terminating NUL. -/

namespace FileStorage

def ascii (s : String) : Path := s.toList.map fun letter => letter.val.toUInt8

/-! ### `strtok` -/

/-- `strtok` with one delimiter on a string, or on what the call before has kept: the token, if
there is one, and what is kept. -/
def strtok (delim : UInt8) (s : Path) : Option Path × Path :=
  let token := s.dropWhile fun b => b = delim
  if token = [] then (none, [])
  else (some (token.takeWhile fun b => b ≠ delim), (token.dropWhile fun b => b ≠ delim).drop 1)

/-- The parts between the delimiters that are not empty. -/
def tokens (delim : UInt8) (s : Path) : List Path :=
  (s.splitOnP fun b => b = delim).filter fun token => token ≠ []

section Tokens

variable {delim : UInt8} {s t token rest : Path}

@[simp] theorem strtok_cons_self (delim : UInt8) (s : Path) :
    strtok delim (delim :: s) = strtok delim s := by
  simp [strtok]

/-- The end of a string that has no delimiter, or its first delimiter. -/
theorem cut_cases (delim : UInt8) (s : Path) :
    ((∀ b ∈ s, b ≠ delim) ∧ s.takeWhile (fun b => b ≠ delim) = s ∧
        s.dropWhile (fun b => b ≠ delim) = []) ∨
      ∃ t rest, s = t ++ delim :: rest ∧ (∀ b ∈ t, b ≠ delim) ∧
        s.takeWhile (fun b => b ≠ delim) = t ∧ s.dropWhile (fun b => b ≠ delim) = delim :: rest := by
  induction s with
  | nil => exact .inl (by simp)
  | cons c s ih =>
    by_cases hc : c = delim
    · exact .inr ⟨[], s, by simp [hc], by simp, by simp [hc], by simp [hc]⟩
    · rcases ih with ⟨hs, ht, hd⟩ | ⟨t, rest, hs, hne, ht, hd⟩
      · exact .inl ⟨by simpa [hc] using hs, by simpa [hc] using ht, by simpa [hc] using hd⟩
      · refine .inr ⟨c :: t, rest, by simp [hs], by simpa [hc] using hne, ?_, ?_⟩
        · simpa [hc] using ht
        · simpa [hc] using hd

/-- A call of `strtok` finds nothing but delimiters, or the last token, or a token with a
delimiter behind it. -/
theorem strtok_cases (delim : UInt8) (s : Path) :
    ((∀ b ∈ s, b = delim) ∧ strtok delim s = (none, [])) ∨
      ∃ skipped token, (∀ b ∈ skipped, b = delim) ∧ token ≠ [] ∧ (∀ b ∈ token, b ≠ delim) ∧
        (s = skipped ++ token ∧ strtok delim s = (some token, []) ∨
          ∃ rest, s = skipped ++ token ++ delim :: rest ∧ strtok delim s = (some token, rest)) := by
  induction s with
  | nil => exact .inl (by simp [strtok])
  | cons c s ih =>
    by_cases hc : c = delim
    · subst hc
      rw [strtok_cons_self]
      rcases ih with ⟨hs, he⟩ | ⟨skipped, token, hskip, hne, htoken, ih⟩
      · exact .inl ⟨by simpa using hs, he⟩
      · refine .inr ⟨c :: skipped, token, by simpa using hskip, hne, htoken, ?_⟩
        rcases ih with ⟨hs, he⟩ | ⟨rest, hs, he⟩
        · exact .inl ⟨by simp [hs], he⟩
        · exact .inr ⟨rest, by simp [hs], he⟩
    · rcases cut_cases delim (c :: s) with ⟨hs, ht, hd⟩ | ⟨t, rest, hs, hne, ht, hd⟩
      · refine .inr ⟨[], c :: s, by simp, by simp, hs, .inl ⟨rfl, ?_⟩⟩
        have hdrop : (c :: s).dropWhile (fun b => b = delim) = c :: s := by simp [hc]
        simp only [strtok, hdrop, ht, hd]
        rfl
      · have hnil : t ≠ [] := by
          rintro rfl
          exact hc (List.cons.inj hs).1
        refine .inr ⟨[], t, by simp, hnil, hne, .inr ⟨rest, hs, ?_⟩⟩
        have hdrop : (c :: s).dropWhile (fun b => b = delim) = c :: s := by simp [hc]
        simp only [strtok, hdrop, ht, hd]
        rfl

theorem strtok_eq_none_iff : (strtok delim s).1 = none ↔ ∀ b ∈ s, b = delim := by
  rcases strtok_cases delim s with ⟨hs, he⟩ | ⟨skipped, token, _, hne, htoken, h⟩
  · rw [he]
    exact iff_of_true rfl hs
  · obtain ⟨b, hb⟩ := List.exists_mem_of_ne_nil token hne
    have hmem : b ∈ s := by
      rcases h with ⟨rfl, _⟩ | ⟨rest, rfl, _⟩ <;> simp [hb]
    have hsome : (strtok delim s).1 = some token := by
      rcases h with ⟨_, he⟩ | ⟨rest, _, he⟩ <;> rw [he]
    rw [hsome]
    exact iff_of_false (by simp) fun hall => htoken b hb (hall b hmem)

theorem tokens_append_cons (delim : UInt8) (s t : Path) :
    tokens delim (s ++ delim :: t) = tokens delim s ++ tokens delim t := by
  rw [tokens, List.splitOnP_append_cons s t (by simp), List.filter_append]
  rfl

@[simp] theorem tokens_nil (delim : UInt8) : tokens delim [] = [] := by
  simp [tokens, List.splitOnP_nil]

@[simp] theorem tokens_cons_self (delim : UInt8) (t : Path) :
    tokens delim (delim :: t) = tokens delim t := by
  simpa using tokens_append_cons delim [] t

theorem tokens_skip (h : ∀ b ∈ s, b = delim) (t : Path) : tokens delim (s ++ t) = tokens delim t := by
  induction s with
  | nil => rfl
  | cons b s ih =>
    obtain rfl : b = delim := h b (by simp)
    rw [List.cons_append, tokens_cons_self]
    exact ih fun c hc => h c (by simp [hc])

theorem tokens_of_forall_ne (hs : s ≠ []) (h : ∀ b ∈ s, b ≠ delim) : tokens delim s = [s] := by
  rw [tokens, List.splitOnP_eq_singleton fun b hb => by simpa using h b hb]
  simp [hs]

/-- A call of `strtok` takes the first token and keeps the others. -/
theorem strtok_tokens (delim : UInt8) (s : Path) :
    (strtok delim s).1 = (tokens delim s).head? ∧
      tokens delim (strtok delim s).2 = (tokens delim s).tail := by
  rcases strtok_cases delim s with ⟨hs, he⟩ | ⟨skipped, token, hskip, hne, htoken, h⟩
  · have hnil : tokens delim s = [] := by simpa using tokens_skip hs []
    simp [he, hnil]
  · rcases h with ⟨rfl, he⟩ | ⟨rest, rfl, he⟩
    · simp [he, tokens_skip hskip, tokens_of_forall_ne hne htoken]
    · rw [he, tokens_append_cons, tokens_skip hskip, tokens_of_forall_ne hne htoken]
      exact ⟨rfl, rfl⟩

theorem length_strtok (h : (strtok delim s).1 ≠ none) : (strtok delim s).2.length < s.length := by
  rcases strtok_cases delim s with ⟨_, he⟩ | ⟨skipped, token, _, hne, _, ⟨rfl, he⟩ | ⟨rest, rfl, he⟩⟩
  · exact absurd (by rw [he]) h
  · have := List.length_pos_of_ne_nil hne
    simp only [he, List.length_append, List.length_nil]
    omega
  · simp only [he, List.length_append, List.length_cons]
    omega

end Tokens

/-! ### Numbers -/

def isSpace (b : UInt8) : Bool := b = 32 || 9 ≤ b && b ≤ 13

/-- The digits at the head of a string, behind a number. -/
def digits (n : Nat) : Path → Nat
  | [] => n
  | b :: s => if 48 ≤ b ∧ b ≤ 57 then digits (10 * n + (b.toNat - 48)) s else n

/-- `strtol` in base ten: blanks, a sign, digits; a value out of range is the nearest one that is
not. -/
def strtol (s : Path) : Int :=
  match s.dropWhile isSpace with
  | 45 :: t => max (-2 ^ 63) (-(digits 0 t : Int))
  | 43 :: t => min (2 ^ 63 - 1) (digits 0 t)
  | t => min (2 ^ 63 - 1) (digits 0 t)

/-- `atoi`, which is `strtol` narrowed to `int`. -/
def atoi (s : Path) : Int := toInt (strtol s)

example : strtol (ascii " -42x") = -42 := by decide

def isDigit (b : UInt8) : Bool := 48 ≤ b && b ≤ 57

/-- Whether `strtol` sets `errno` to `ERANGE`. -/
def strtolErange (s : Path) : Bool :=
  match s.dropWhile isSpace with
  | 45 :: t => 2 ^ 63 < digits 0 t
  | 43 :: t => 2 ^ 63 - 1 < digits 0 t
  | t => 2 ^ 63 - 1 < digits 0 t

/-- What `strtol` leaves behind the number, and the whole string where there is none. -/
def strtolEnd (s : Path) : Path :=
  let unsigned := match s.dropWhile isSpace with
    | 45 :: t => t
    | 43 :: t => t
    | t => t
  if unsigned.head?.any isDigit then unsigned.dropWhile isDigit else s

/-- `is_number`, with the number that it stores. -/
def isNumber : Option Path → Int × Option Int
  | none => (1, none)
  | some s =>
    if s = [] then (1, none)
    else if strtolErange s then (2, none)
    else if strtolEnd s = [] then (0, some (strtol s))
    else (1, none)

/-! ### `basename` -/

/-- `basename` of `libgen.h`: what is behind the last `/` once those at the end are left out. -/
def basename (path : Path) : Path :=
  if path = [] then ascii "."
  else
    let stripped := path.rdropWhile fun b => b = 47
    if stripped = [] then ascii "/" else stripped.rtakeWhile fun b => b ≠ 47

example : basename (ascii "/usr/lib/") = ascii "lib" := by decide

end FileStorage
