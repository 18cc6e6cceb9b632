/-
# `Yuva.Lib.Scan` — reading a text back

A text is a list of characters.  What a program does to read one that another program wrote: cut
it into lines, trim them, find what follows a key, read a hexadecimal number as far as its digits
go.  The rules say when each finds what was written:

    lines that end where the separator first stands come back (`pieces_flatten`, `lines_unlines`)
    a text that starts and ends with other characters
      is trimmed of nothing                                   (`trim_eq`)
    a key is found behind parts it cannot start in            (`after_skip`, `after_miss`)
    a word comes back from its sixteen digits                 (`readHex_hex16`)

Nothing here mentions a particular program.
-/
import Mathlib.Data.List.Basic
import Mathlib.Data.List.Induction
import Mathlib.Tactic.Ring

namespace Yuva.Scan

abbrev Text := List Char

/-! ## Keys -/

section After

variable {α : Type} [DecidableEq α]

/-- What follows the first occurrence of the pattern. -/
def after (p : List α) : List α → Option (List α)
  | [] => if p.isPrefixOf [] then some [] else none
  | c :: cs => if p.isPrefixOf (c :: cs) then some ((c :: cs).drop p.length) else after p cs

/-- A pattern does not start in a part that lacks its first letter. -/
theorem after_skip {c : α} {p part : List α} (h : c ∉ part) (rest : List α) :
    after (c :: p) (part ++ rest) = after (c :: p) rest := by
  induction part with
  | nil => rfl
  | cons b part ih =>
      have hne : (c == b) = false := beq_eq_false_iff_ne.mpr fun heq => h (heq ▸ List.mem_cons_self)
      rw [List.cons_append, after, List.isPrefixOf, hne, Bool.false_and, if_neg Bool.false_ne_true]
      exact ih fun hmem => h (List.mem_cons_of_mem _ hmem)

/-- The pattern starts nowhere in the part, whatever comes behind it. -/
def Misses (p : List α) : List α → Prop
  | [] => True
  | c :: cs => ¬p <+: c :: cs ∧ ¬c :: cs <+: p ∧ Misses p cs

instance (p : List α) : ∀ part, Decidable (Misses p part)
  | [] => inferInstanceAs (Decidable True)
  | _ :: cs =>
      have : Decidable (Misses p cs) := instDecidableMisses p cs
      inferInstanceAs (Decidable (_ ∧ _ ∧ _))

theorem after_miss {p part : List α} (h : Misses p part) (rest : List α) : after p (part ++ rest) = after p rest := by
  induction part with
  | nil => rfl
  | cons c part ih =>
      obtain ⟨hlong, hshort, htail⟩ := h
      have hnot : ¬p.isPrefixOf (c :: (part ++ rest)) = true := by
        rw [List.isPrefixOf_iff_prefix]
        intro hp
        rcases List.prefix_or_prefix_of_prefix hp (List.prefix_append (c :: part) rest) with hin | hout
        · exact hlong hin
        · exact hshort hout
      rw [List.cons_append, after, if_neg hnot]
      exact ih htail

theorem after_hit (p rest : List α) : after p (p ++ rest) = some rest := by
  have hfront : p.isPrefixOf (p ++ rest) = true := List.isPrefixOf_iff_prefix.mpr (List.prefix_append p rest)
  cases h : p ++ rest with
  | nil =>
      obtain ⟨rfl, rfl⟩ := List.append_eq_nil_iff.mp h
      rfl
  | cons c cs => rw [after, if_pos (h ▸ hfront), ← h, List.drop_left]

end After

/-! ## Lines -/

section Pieces

variable {α : Type} [DecidableEq α]

/-- `split_inclusive` at a separator: every piece but the last ends in one. -/
def pieces (sep : α) : List α → List (List α)
  | [] => []
  | c :: cs =>
      if c = sep then [c] :: pieces sep cs
      else
        match pieces sep cs with
        | [] => [[c]]
        | line :: rest => (c :: line) :: rest

theorem pieces_line {sep : α} {line : List α} (h : sep ∉ line) (rest : List α) :
    pieces sep (line ++ [sep] ++ rest) = (line ++ [sep]) :: pieces sep rest := by
  induction line with
  | nil => simp [pieces]
  | cons c line ih =>
      have hc : c ≠ sep := fun heq => h (heq ▸ List.mem_cons_self)
      rw [List.cons_append, List.cons_append, pieces, if_neg hc, ih fun hmem => h (List.mem_cons_of_mem _ hmem)]

/-- Pieces put together come apart again. -/
theorem pieces_flatten {sep : α} {ls : List (List α)} (h : ∀ l ∈ ls, ∃ body, l = body ++ [sep] ∧ sep ∉ body) :
    pieces sep ls.flatten = ls := by
  induction ls with
  | nil => rfl
  | cons l ls ih =>
      obtain ⟨body, rfl, hbody⟩ := h l List.mem_cons_self
      rw [List.flatten_cons, pieces_line hbody, ih fun l' hl' => h l' (List.mem_cons_of_mem _ hl')]

end Pieces

/-- A piece without its line feed, and without a carriage return before that. -/
def lineOf (piece : Text) : Text :=
  match piece.reverse with
  | '\n' :: '\r' :: line => line.reverse
  | '\n' :: line => line.reverse
  | _ => piece

/-- Rust's `lines`. -/
def lines (s : Text) : List Text := (pieces '\n' s).map lineOf

def unlines (ls : List Text) : Text := ls.flatMap fun l => l ++ ['\n']

theorem lines_unlines {ls : List Text} (h : ∀ l ∈ ls, '\n' ∉ l) :
    lines (unlines ls) = ls.map fun l => lineOf (l ++ ['\n']) := by
  have hpieces : pieces '\n' (ls.map fun l => l ++ ['\n']).flatten = ls.map fun l => l ++ ['\n'] := by
    refine pieces_flatten fun l hl => ?_
    obtain ⟨body, hbody, rfl⟩ := List.mem_map.mp hl
    exact ⟨body, rfl, h body hbody⟩
  rw [unlines, List.flatMap_def, lines, hpieces, List.map_map]
  rfl

/-! ## Trimming -/

/-- Unicode's `White_Space`. -/
def isWhiteSpace (c : Char) : Bool :=
  let n := c.toNat
  (0x9 ≤ n && n ≤ 0xD) || n == 0x20 || n == 0x85 || n == 0xA0 || n == 0x1680 || (0x2000 ≤ n && n ≤ 0x200A) ||
    n == 0x2028 || n == 0x2029 || n == 0x202F || n == 0x205F || n == 0x3000

def trimStart (s : Text) : Text := s.dropWhile isWhiteSpace

/-- Rust's `trim`. -/
def trim (s : Text) : Text := (trimStart (trimStart s).reverse).reverse

theorem trimStart_eq {s : Text} (h : ∀ c ∈ s.head?, isWhiteSpace c = false) : trimStart s = s := by
  cases s with
  | nil => rfl
  | cons c s => exact List.dropWhile_cons_of_neg (by rw [h c rfl]; exact Bool.false_ne_true)

/-- A text that starts and ends otherwise has no white space to lose. -/
theorem trim_eq {s : Text} (hhead : ∀ c ∈ s.head?, isWhiteSpace c = false)
    (hlast : ∀ c ∈ s.getLast?, isWhiteSpace c = false) : trim s = s := by
  have hback : trimStart s.reverse = s.reverse := trimStart_eq fun c hc => hlast c (by rwa [← List.head?_reverse])
  rw [trim, trimStart_eq hhead, hback, List.reverse_reverse]

/-- White space at the end is trimmed. -/
theorem trim_snoc {c : Char} (h : isWhiteSpace c = true) (s : Text) : trim (s ++ [c]) = trim s := by
  rw [trim, trim]
  refine congrArg List.reverse ?_
  rw [trimStart, trimStart, trimStart, trimStart, List.dropWhile_append]
  cases hs : s.dropWhile isWhiteSpace with
  | nil =>
      have hnone : [c].dropWhile isWhiteSpace = [] := List.dropWhile_cons_of_pos h
      rw [List.isEmpty_nil, if_pos rfl, hnone]
  | cons a rest =>
      rw [List.isEmpty_cons, if_neg Bool.false_ne_true, List.reverse_append, List.reverse_singleton,
        List.singleton_append]
      exact List.dropWhile_cons_of_pos h

/-- What a line lost is trimmed anyway. -/
theorem trim_lineOf (l : Text) : trim (lineOf (l ++ ['\n'])) = trim l := by
  induction l using List.reverseRecOn with
  | nil => rfl
  | append_singleton l c =>
      by_cases hc : c = '\r'
      · have hline : lineOf (l ++ ['\r'] ++ ['\n']) = l := by
          rw [lineOf, List.reverse_append, List.reverse_append]
          exact List.reverse_reverse l
        rw [hc, hline, trim_snoc (by decide)]
      · have hline : lineOf (l ++ [c] ++ ['\n']) = l ++ [c] := by
          rw [lineOf, List.reverse_append, List.reverse_append]
          simp only [List.reverse_singleton, List.singleton_append]
          split
          case h_1 _ _ heq => exact absurd (List.cons.inj (List.cons.inj heq).2).1 hc
          case h_2 heq =>
            rw [← (List.cons.inj heq).2, List.reverse_cons, List.reverse_reverse]
          case h_3 hnot => exact absurd rfl (hnot _)
        rw [hline]

/-! ## Hexadecimal -/

def hexDigit (n : Nat) : Char := if n < 10 then Char.ofNat (0x30 + n) else Char.ofNat (0x61 + (n - 10))

/-- `{:016x}` of a word. -/
def hex16 (v : BitVec 64) : Text := (List.range 16).map fun i => hexDigit (((v >>> (60 - 4 * i)) &&& 0xF).toNat)

def isHexDigit (c : Char) : Bool :=
  ('0' ≤ c && c ≤ '9') || ('a' ≤ c && c ≤ 'f') || ('A' ≤ c && c ≤ 'F')

def hexValue (c : Char) : Option Nat :=
  if '0' ≤ c && c ≤ '9' then some (c.toNat - 0x30)
  else if 'a' ≤ c && c ≤ 'f' then some (c.toNat - 0x61 + 10)
  else if 'A' ≤ c && c ≤ 'F' then some (c.toNat - 0x41 + 10)
  else none

/-- One more digit of a word. -/
def pushDigit (acc : BitVec 64) (c : Char) : Option (BitVec 64) :=
  match hexValue c with
  | none => none
  | some d => if acc.toNat * 16 + d < 2 ^ 64 then some (.ofNat 64 (acc.toNat * 16 + d)) else none

/-- `u64::from_str_radix` to the base sixteen, of digits: at least one, and no overflow. -/
def fromHex (s : Text) : Option (BitVec 64) := if s = [] then none else s.foldlM pushDigit 0

/-- The number at the front of a text, as far as its digits go. -/
def readHex (s : Text) : Option (BitVec 64) := fromHex (s.takeWhile isHexDigit)

theorem hexDigit_read :
    ∀ n < 16, isHexDigit (hexDigit n) = true ∧ hexValue (hexDigit n) = some n ∧ isWhiteSpace (hexDigit n) = false := by
  decide

theorem length_hex16 (v : BitVec 64) : (hex16 v).length = 16 := by
  rw [hex16, List.length_map, List.length_range]

theorem hex16_ne_nil (v : BitVec 64) : hex16 v ≠ [] := List.ne_nil_of_length_pos (by rw [length_hex16]; decide)

/-- Digit `i` from the left. -/
theorem nibble_eq (v : BitVec 64) {i : Nat} (hi : i < 16) :
    ((v >>> (60 - 4 * i)) &&& 0xF).toNat = v.toNat / 16 ^ (15 - i) % 16 := by
  have hpow : 2 ^ (60 - 4 * i) = 16 ^ (15 - i) := by
    rw [show 60 - 4 * i = 4 * (15 - i) by omega, Nat.pow_mul]
  rw [BitVec.toNat_and, BitVec.toNat_ushiftRight, Nat.shiftRight_eq_div_pow, hpow]
  exact Nat.and_two_pow_sub_one_eq_mod _ 4

/-- The first digits are the number without the others. -/
theorem fold_hex16 (v : BitVec 64) {k : Nat} (hk : k ≤ 16) :
    ((List.range k).map fun i => hexDigit (((v >>> (60 - 4 * i)) &&& 0xF).toNat)).foldlM pushDigit 0 =
      some (BitVec.ofNat 64 (v.toNat / 16 ^ (16 - k))) := by
  induction k with
  | zero =>
      have hzero : v.toNat / 16 ^ 16 = 0 := Nat.div_eq_of_lt v.isLt
      rw [hzero]
      rfl
  | succ k ih =>
      have hd : v.toNat / 16 ^ (15 - k) % 16 < 16 := Nat.mod_lt _ (by decide)
      have hbound : v.toNat / 16 ^ (15 - k) < 2 ^ 64 := Nat.lt_of_le_of_lt (Nat.div_le_self _ _) v.isLt
      have hquot : v.toNat / 16 ^ (16 - k) = v.toNat / 16 ^ (15 - k) / 16 := by
        rw [show 16 - k = 15 - k + 1 by omega, Nat.pow_succ, Nat.div_div_eq_div_mul]
      have hacc : (BitVec.ofNat 64 (v.toNat / 16 ^ (16 - k))).toNat * 16 + v.toNat / 16 ^ (15 - k) % 16 =
          v.toNat / 16 ^ (15 - k) := by
        rw [BitVec.toNat_ofNat, hquot, Nat.mod_eq_of_lt (by omega)]
        omega
      have hpush : pushDigit (.ofNat 64 (v.toNat / 16 ^ (16 - k))) (hexDigit (v.toNat / 16 ^ (15 - k) % 16)) =
          some (.ofNat 64 (v.toNat / 16 ^ (15 - k))) := by
        simp only [pushDigit, (hexDigit_read _ hd).2.1, hacc, if_pos hbound]
      rw [List.range_succ, List.map_append, List.foldlM_append, ih (by omega), List.map_singleton,
        nibble_eq v (by omega), show 16 - (k + 1) = 15 - k by omega]
      simp only [Option.bind_eq_bind, Option.bind_some, List.foldlM_cons, List.foldlM_nil, hpush]
      rfl

theorem mem_hex16 {v : BitVec 64} {c : Char} (h : c ∈ hex16 v) : isHexDigit c = true ∧ isWhiteSpace c = false := by
  obtain ⟨i, hi, rfl⟩ := List.mem_map.mp h
  rw [nibble_eq v (List.mem_range.mp hi)]
  obtain ⟨hdigit, -, hspace⟩ := hexDigit_read _ (Nat.mod_lt (v.toNat / 16 ^ (15 - i)) (show 16 > 0 by decide))
  exact ⟨hdigit, hspace⟩

/-- A word is read back from its sixteen digits. -/
theorem readHex_hex16 (v : BitVec 64) {rest : Text} (h : ∀ c ∈ rest.head?, isHexDigit c = false) :
    readHex (hex16 v ++ rest) = some v := by
  have hstop : rest.takeWhile isHexDigit = [] := by
    cases rest with
    | nil => rfl
    | cons c rest => exact List.takeWhile_cons_of_neg (by rw [h c rfl]; exact Bool.false_ne_true)
  have hfold : (hex16 v).foldlM pushDigit 0 = some (BitVec.ofNat 64 (v.toNat / 16 ^ (16 - 16))) := fold_hex16 v le_rfl
  rw [readHex, List.takeWhile_append_of_pos fun c hc => (mem_hex16 hc).1, hstop, List.append_nil, fromHex,
    if_neg (hex16_ne_nil v), hfold, Nat.sub_self, Nat.pow_zero, Nat.div_one, BitVec.ofNat_toNat, BitVec.setWidth_eq]

end Yuva.Scan
