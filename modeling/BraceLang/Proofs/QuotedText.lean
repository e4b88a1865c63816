import BraceLang.Emission.Text
import Mathlib.Algebra.GroupWithZero.Nat
import Mathlib.Tactic.SplitIfs

/-!
# Reading quoted text back

The reader of quoted text knows the escapes by a letter and those by a number in three widths, takes every other
character for itself, and ends at the first quote that is not escaped.
-/

namespace BraceLang

open List

/-! ### The reader -/

def hexValue? (c : Char) : Option Nat :=
  if c.isDigit then some (c.toNat - '0'.toNat)
  else if 'a' ≤ c ∧ c ≤ 'f' then some (10 + (c.toNat - 'a'.toNat))
  else if 'A' ≤ c ∧ c ≤ 'F' then some (10 + (c.toNat - 'A'.toNat))
  else none

def hexNumber? (cs : List Char) : Option Nat := cs.foldlM (fun n c => (hexValue? c).map (16 * n + ·)) 0

/-- The character whose number has the given width, and what follows it. -/
def numbered? (width : Nat) (cs : List Char) : Option (Char × List Char) := do
  let n ← hexNumber? (cs.take width)
  if width ≤ cs.length ∧ n.isValidChar then some (Char.ofNat n, cs.drop width) else none

def letterEscapes : List (Char × Char) :=
  [('\\', '\\'), ('\'', '\''), ('"', '"'), ('n', '\n'), ('r', '\r'), ('t', '\t')]

/-- What an escape stands for, from behind its backslash on; a backslash before any other letter is one itself. -/
def escaped? : List Char → Option (Char × List Char)
  | [] => none
  | c :: cs =>
    match [('x', 2), ('u', 4), ('U', 8)].lookup c with
    | some width => numbered? width cs
    | none =>
      match letterEscapes.lookup c with
      | some d => some (d, cs)
      | none => some ('\\', c :: cs)

theorem escaped?_length (h : escaped? cs = some (d, r)) : r.length ≤ cs.length := by
  unfold escaped? at h
  split at h
  · cases h
  · split at h
    · obtain ⟨n, -, hn⟩ := Option.bind_eq_some_iff.1 h
      split at hn <;> grind
    · split at h <;> grind

/-- What stands in front of the first quote that is not escaped, and what is behind that quote. -/
def inside? (mark : Char) : List Char → Option (List Char × List Char)
  | [] => none
  | c :: cs =>
    if c = mark then some ([], cs)
    else if c = '\n' ∨ c = '\r' then none
    else if c = '\\' then
      match h : escaped? cs with
      | none => none
      | some (d, r) =>
        have := escaped?_length h
        (inside? mark r).map fun p => (d :: p.1, p.2)
    else (inside? mark cs).map fun p => (c :: p.1, p.2)
termination_by cs => cs.length

/-- The text that a literal at the start of the characters denotes, and what is behind the literal. -/
def readQuoted : List Char → Option (List Char × List Char)
  | [] => none
  | mark :: cs => if mark = '\'' ∨ mark = '"' then inside? mark cs else none

/-! ### One character -/

theorem hexNumber?_hexDigits (width n : Nat) : hexNumber? (hexDigits width n) = some (n % 16 ^ width) := by
  induction width generalizing n with
  | zero => simp [hexDigits, hexNumber?, Nat.mod_one]
  | succ width ih =>
    have hdigit := (by decide : ∀ d < 16, hexValue? (hexDigit d) = some d) (n % 16) (Nat.mod_lt n (by decide))
    rw [hexNumber?, hexDigits, foldlM_append, ← hexNumber?, ih, Nat.pow_succ, Nat.mul_comm (16 ^ width), Nat.mod_mul]
    simp [hdigit, Nat.add_comm]

theorem length_hexDigits (width n : Nat) : (hexDigits width n).length = width := by
  induction width generalizing n with
  | zero => rfl
  | succ width ih => rw [hexDigits, length_append, ih, length_singleton]

theorem numbered?_hexDigits (h : c.toNat < 16 ^ width) (r : List Char) :
    numbered? width (hexDigits width c.toNat ++ r) = some (c, r) := by
  have hlen := length_hexDigits width c.toNat
  have hvalid : c.toNat.isValidChar := c.valid
  rw [numbered?, take_left' hlen, drop_left' hlen, hexNumber?_hexDigits, Nat.mod_eq_of_lt h]
  simp only [length_append, hlen, hvalid, Option.bind_eq_bind, Option.bind_some, Nat.le_add_right, and_self, if_true,
    Char.ofNat_toNat]

variable {printable : Char → Bool} {mark c d : Char} {cs r : List Char}

theorem inside?_escape (hmark : mark ≠ '\\') (h : escaped? cs = some (d, r)) :
    inside? mark ('\\' :: cs) = (inside? mark r).map fun p => (d :: p.1, p.2) := by
  rw [inside?, if_neg hmark.symm, if_neg (by decide), if_pos rfl]
  split <;> simp_all

theorem escaped?_numberEscape (c : Char) : ∃ cs, numberEscape c.toNat = '\\' :: cs ∧
    ∀ r, escaped? (cs ++ r) = some (c, r) := by
  unfold numberEscape
  split
  · exact ⟨_, rfl, numbered?_hexDigits (by omega)⟩
  split
  · exact ⟨_, rfl, numbered?_hexDigits (by omega)⟩
  · have hvalid : c.toNat.isValidChar := c.valid
    exact ⟨_, rfl, numbered?_hexDigits (by unfold Nat.isValidChar at hvalid; omega)⟩

theorem inside?_escapeChar (hmark : mark = '\'' ∨ mark = '"') :
    inside? mark (escapeChar printable mark c ++ r) = (inside? mark r).map fun p => (c :: p.1, p.2) := by
  have hne : mark ≠ '\\' := by rcases hmark with rfl | rfl <;> decide
  unfold escapeChar
  split_ifs with hc hline hreturn htab hprint
  · rcases hc with rfl | rfl
    · rcases hmark with rfl | rfl <;> exact inside?_escape hne rfl
    · exact inside?_escape hne rfl
  · exact inside?_escape hne (by rw [hline]; rfl)
  · exact inside?_escape hne (by rw [hreturn]; rfl)
  · exact inside?_escape hne (by rw [htab]; rfl)
  · rw [singleton_append, inside?]
    simp_all
  · obtain ⟨cs, hcs, h⟩ := escaped?_numberEscape c
    rw [hcs]
    exact inside?_escape hne (h r)

theorem inside?_flatMap (hmark : mark = '\'' ∨ mark = '"') (v : List Char) :
    inside? mark (v.flatMap (escapeChar printable mark) ++ mark :: r) = some (v, r) := by
  induction v with
  | nil => rw [flatMap_nil, nil_append, inside?, if_pos rfl]
  | cons c v ih => rw [flatMap_cons, append_assoc, inside?_escapeChar hmark, ih, Option.map_some]

/-! ### Whole texts -/

theorem quoteMark_cases (s : List Char) : quoteMark s = '\'' ∨ quoteMark s = '"' := by
  unfold quoteMark
  split
  · exact .inr rfl
  · exact .inl rfl

theorem notMem_numberEscape (hd : d = '\n' ∨ d = '\r') (n : Nat) : d ∉ numberEscape n := by
  have hdigits (width n : Nat) : d ∉ hexDigits width n := by
    induction width generalizing n with
    | zero => exact not_mem_nil
    | succ =>
      have hdigit := (by decide : ∀ k < 16, hexDigit k ≠ '\n' ∧ hexDigit k ≠ '\r') (n % 16) (Nat.mod_lt n (by decide))
      rw [hexDigits, mem_append, mem_singleton]
      grind
  unfold numberEscape
  split_ifs <;> grind

theorem notMem_quoteWith (hd : d = '\n' ∨ d = '\r') (s : List Char) : d ∉ quoteWith printable s := by
  have hmark := quoteMark_cases s
  have hchar (c : Char) : d ∉ escapeChar printable (quoteMark s) c := by
    have := notMem_numberEscape hd c.toNat
    unfold escapeChar
    grind
  rw [quoteWith]
  simp only [mem_cons, mem_append, mem_flatMap, hchar]
  grind

/-- A literal with a text writes one piece.  It has no end of line, starts and ends with the same quote, and is read as
a literal of that text with nothing behind it, whatever characters are printable. -/
theorem text_literal_read (v : String) (target : Target) (e : Emitter) (printable : Char → Bool) :
    (Node.literal (.text v) .string).emit target e =
      ((), { e with output := e.output.push (String.ofList (quoteWith isPrintable v.toList)) }) ∧
    '\n' ∉ quoteWith printable v.toList ∧ '\r' ∉ quoteWith printable v.toList ∧
    (quoteWith printable v.toList).getLast? = (quoteWith printable v.toList).head? ∧
    readQuoted (quoteWith printable v.toList) = some (v.toList, []) := by
  have hmark := quoteMark_cases v.toList
  refine ⟨rfl, notMem_quoteWith (.inl rfl) _, notMem_quoteWith (.inr rfl) _, ?_, ?_⟩
  · rw [quoteWith, ← cons_append, getLast?_concat, cons_append, head?_cons]
  · rw [quoteWith, readQuoted, if_pos hmark, inside?_flatMap hmark]

end BraceLang
