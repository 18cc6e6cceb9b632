/-
# `Yuva.Xport.Live` — the liveness matcher

`tools/xport-harness/src/live.rs`, `challenge_groups`, `expected_transforms` and
`matched_transform`: an answer counts as live if it contains one of three reversals of the
challenge, or all four of its groups and not the forward concatenation.

**Proved here.**  A text that echoes the groups once each and in forward order is rejected if
and only if nothing is left between them when the ASCII whitespace is gone
(`forward_rejected_iff`).  With a dash between them the echo counts as a permutation.  The
documentation of `Matched::Perm` excludes the forward order; the check excludes only its
concatenation.

A text is a list of characters, as Rust's `chars` gives them; searching for a string in a
string by bytes and by characters finds the same, both being UTF-8.
-/
import Yuva.Lib.Bytes
import Yuva.Lib.Occurs

namespace Yuva.Xport

open Yuva.Bytes Yuva.Occurs

abbrev Text := List Char

/-! ## The challenge and its forms -/

/-- `format!("{b:02x}")`, for every byte. -/
def hex (bytes : List UInt8) : Text :=
  bytes.flatMap fun b => [Nat.digitChar (b.toNat / 16), Nat.digitChar (b.toNat % 16)]

def challengeGroups (challenge : Block 16) (i : Fin 4) : Text := ((hex challenge.1).drop (8 * i)).take 8

inductive Matched where
  | group
  | byte
  | char
  | perm
  | none
  deriving DecidableEq, Repr

/-- The three standard reversals: by group, by byte and by character. -/
def expectedTransforms (challenge : Block 16) : List Text :=
  let g := challengeGroups challenge
  [g 3 ++ g 2 ++ g 1 ++ g 0, hex challenge.1.reverse, (hex challenge.1).reverse]

/-! ## The matcher -/

def isAsciiWhitespace (c : Char) : Bool :=
  c == ' ' || c == '\t' || c == '\n' || c == '\x0c' || c == '\r'

def normalize (text : Text) : Text := (text.filter fun c => !isAsciiWhitespace c).map Char.toLower

/-- `s.contains(p)`. -/
def contains (s p : Text) : Bool := decide (p <:+: s)

def forward (challenge : Block 16) : Text :=
  let g := challengeGroups challenge
  g 0 ++ g 1 ++ g 2 ++ g 3

def matchedTransform (respText : Text) (challenge : Block 16) : Matched :=
  let normalized := normalize respText
  let forms := (expectedTransforms challenge).zip [Matched.group, Matched.byte, Matched.char]
  match forms.find? fun form => contains normalized form.1 with
  | some form => form.2
  | Option.none =>
      let allGroupsPresent := (List.finRange 4).all fun i => contains normalized (challengeGroups challenge i)
      if allGroupsPresent && !contains normalized (forward challenge) then .perm else .none

theorem length_hex (bytes : List UInt8) : (hex bytes).length = 2 * bytes.length := by
  induction bytes with
  | nil => rfl
  | cons b bs ih =>
      show (hex bs).length + 2 = 2 * (bs.length + 1)
      omega

theorem challengeGroups_ne_nil (challenge : Block 16) (i : Fin 4) : challengeGroups challenge i ≠ [] := by
  refine List.ne_nil_of_length_pos ?_
  rw [challengeGroups, List.length_take, List.length_drop, length_hex, challenge.2]
  omega

/-- Without a reversal in it, a text with all four groups is live unless it has the forward form. -/
theorem matchedTransform_none_iff {challenge : Block 16} {text : Text}
    (hforms : ∀ form ∈ expectedTransforms challenge, ¬ form <:+: normalize text)
    (hgroups : ∀ i, challengeGroups challenge i <:+: normalize text) :
    matchedTransform text challenge = .none ↔ forward challenge <:+: normalize text := by
  have hmiss : ((expectedTransforms challenge).zip [Matched.group, Matched.byte, Matched.char]).find?
      (fun form => contains (normalize text) form.1) = Option.none := by
    refine List.find?_eq_none.mpr fun form hform => ?_
    rw [contains, decide_eq_true_eq]
    exact hforms form.1 (List.of_mem_zip hform).1
  have hall : ((List.finRange 4).all fun i => contains (normalize text) (challengeGroups challenge i)) = true :=
    List.all_eq_true.mpr fun i _ => decide_eq_true (hgroups i)
  rw [matchedTransform]
  simp only [hmiss, hall, Bool.true_and]
  by_cases hforward : forward challenge <:+: normalize text
  · simp [contains, hforward]
  · simp [contains, hforward]

/-! ## Forward echoes -/

/-- A text that echoes the challenge forward: the groups, distinct, once each and in order, around
them any other characters, and no reversal. -/
structure Echo (challenge : Block 16) (text before sep₁ sep₂ sep₃ after : Text) : Prop where
  distinct : ∀ i j, challengeGroups challenge i = challengeGroups challenge j → i = j
  layout : normalize text = before ++ challengeGroups challenge 0 ++ sep₁ ++ challengeGroups challenge 1 ++ sep₂ ++
    challengeGroups challenge 2 ++ sep₃ ++ challengeGroups challenge 3 ++ after
  once : ∀ i, occurrences (challengeGroups challenge i) (normalize text) = 1
  plain : ∀ form ∈ expectedTransforms challenge, ¬ form <:+: normalize text

namespace Echo

variable {challenge : Block 16} {text before sep₁ sep₂ sep₃ after : Text}

/-- Two groups with one separator between them. -/
theorem adjacent (h : Echo challenge text before sep₁ sep₂ sep₃ after) {i j : Fin 4} {a sep b : Text}
    (hlayout : normalize text = a ++ challengeGroups challenge i ++ sep ++ challengeGroups challenge j ++ b) :
    challengeGroups challenge i ++ challengeGroups challenge j <:+: normalize text ↔ sep = [] :=
  adjacent_iff (challengeGroups_ne_nil challenge i) (challengeGroups_ne_nil challenge j) (h.once i) (h.once j) hlayout

theorem layout₀ (h : Echo challenge text before sep₁ sep₂ sep₃ after) : normalize text =
    before ++ challengeGroups challenge 0 ++ sep₁ ++ challengeGroups challenge 1 ++
      (sep₂ ++ challengeGroups challenge 2 ++ sep₃ ++ challengeGroups challenge 3 ++ after) := by
  simp only [h.layout, List.append_assoc]

theorem layout₁ (h : Echo challenge text before sep₁ sep₂ sep₃ after) : normalize text =
    (before ++ challengeGroups challenge 0 ++ sep₁) ++ challengeGroups challenge 1 ++ sep₂ ++
      challengeGroups challenge 2 ++ (sep₃ ++ challengeGroups challenge 3 ++ after) := by
  simp only [h.layout, List.append_assoc]

theorem groups (h : Echo challenge text before sep₁ sep₂ sep₃ after) (i : Fin 4) :
    challengeGroups challenge i <:+: normalize text := by
  match i with
  | 0 =>
      rw [h.layout₀, List.append_assoc, List.append_assoc]
      exact List.infix_append before _ _
  | 1 => exact ⟨_, _, h.layout₀.symm⟩
  | 2 => exact ⟨_, _, h.layout₁.symm⟩
  | 3 => exact ⟨_, _, h.layout.symm⟩

theorem forward_iff (h : Echo challenge text before sep₁ sep₂ sep₃ after) :
    forward challenge <:+: normalize text ↔ sep₁ = [] ∧ sep₂ = [] ∧ sep₃ = [] := by
  constructor
  · intro hforward
    rw [forward] at hforward
    refine ⟨(h.adjacent h.layout₀).mp ?_, (h.adjacent h.layout₁).mp ?_, (h.adjacent h.layout).mp ?_⟩
    · exact .trans ⟨[], challengeGroups challenge 2 ++ challengeGroups challenge 3, by simp⟩ hforward
    · exact .trans ⟨challengeGroups challenge 0, challengeGroups challenge 3, by simp⟩ hforward
    · exact .trans ⟨challengeGroups challenge 0 ++ challengeGroups challenge 1, [], by simp⟩ hforward
  · rintro ⟨rfl, rfl, rfl⟩
    exact ⟨before, after, by simp [h.layout, forward]⟩

end Echo

/-- **An echo is rejected only if nothing separates its groups.** -/
theorem forward_rejected_iff (challenge : Block 16) (text before sep₁ sep₂ sep₃ after : Text)
    (h : Echo challenge text before sep₁ sep₂ sep₃ after) :
    matchedTransform text challenge = .none ↔ sep₁ = [] ∧ sep₂ = [] ∧ sep₃ = [] := by
  rw [matchedTransform_none_iff h.plain h.groups]
  exact h.forward_iff

def bootChallenge : Block 16 :=
  ⟨[0x01, 0x23, 0x45, 0x67, 0x89, 0xab, 0xcd, 0xef, 0x10, 0x32, 0x54, 0x76, 0x98, 0xba, 0xdc, 0xfe], rfl⟩

/-- The four groups with a separator between each two. -/
def joined (sep : Char) : Text :=
  let g := challengeGroups bootChallenge
  g 0 ++ [sep] ++ g 1 ++ [sep] ++ g 2 ++ [sep] ++ g 3

theorem spaced_echo : Echo bootChallenge (joined ' ') [] [] [] [] [] where
  distinct := by decide
  layout := by decide
  once := by decide
  plain := by decide

theorem forward_rejected_iff_spaced : matchedTransform (joined ' ') bootChallenge = .none ↔
    ([] : Text) = [] ∧ ([] : Text) = [] ∧ ([] : Text) = [] :=
  forward_rejected_iff bootChallenge (joined ' ') [] [] [] [] [] spaced_echo

theorem dashed_echo : Echo bootChallenge (joined '-') [] ['-'] ['-'] ['-'] [] where
  distinct := by decide
  layout := by decide
  once := by decide
  plain := by decide

/-- With a dash between the groups the forward echo counts as live. -/
theorem dashed_echo_matches : ¬ ∀ (challenge : Block 16) (text before sep₁ sep₂ sep₃ after : Text),
    Echo challenge text before sep₁ sep₂ sep₃ after → matchedTransform text challenge = .none := by
  intro h
  have hperm : matchedTransform (joined '-') bootChallenge = .perm := by decide
  have hnone := h bootChallenge (joined '-') [] ['-'] ['-'] ['-'] [] dashed_echo
  rw [hperm] at hnone
  cases hnone

end Yuva.Xport
