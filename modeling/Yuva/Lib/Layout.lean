/-
# `Yuva.Lib.Layout` — records of fixed-width fields

A record is written as its fields one behind the other, each of a width of its own, and read
back by cutting a buffer at those widths.  What such a codec has to say of itself is one
equivalence, `Reads`: the decoder returns a record exactly where the buffer is long enough, the
record is one the decoder admits, and the fields cut out of the buffer are the record's.

    a record is read back, whatever stands behind it        (`Reads.decode_bytes`)
    the bytes determine the record                          (`Reads.bytes_inj`)
    what was read is written as the bytes it was read from  (`Reads.bytes_of_decode`)
    a buffer is refused iff no record starts it             (`Reads.refused_iff`)
    a decoder that reads every field in its place is one    (`Reads.of_read`)

A record that leaves one word of the buffer out is still written as the bytes it was read from
where that word was zero (`flatten_cleared_iff`).

Nothing here mentions a particular record.
-/
import Yuva.Lib.Bytes

namespace Yuva.Layout

open Yuva.Bytes

/-- Cutting at the widths of the fields gives the fields. -/
theorem cuts_flatten (fs : List (List UInt8)) (pre rest : List UInt8) :
    cuts (pre ++ (fs.flatten ++ rest)) pre.length (fs.map List.length) = fs := by
  induction fs generalizing pre with
  | nil => rfl
  | cons f fs ih =>
      have hfield : slice (pre ++ (f ++ (fs.flatten ++ rest))) pre.length f.length = f := by
        rw [slice_skip _ _ (Nat.le_refl _), Nat.sub_self, slice_here _ _ rfl]
      have htail : cuts (pre ++ (f ++ (fs.flatten ++ rest))) (pre.length + f.length) (fs.map List.length) = fs := by
        have hnext := ih (pre ++ f)
        rwa [List.append_assoc, List.length_append] at hnext
      rw [List.flatten_cons, List.append_assoc, List.map_cons, cuts, hfield, htail]

/-- A byte cut out is the byte read there. -/
theorem byte_cut {buf : List UInt8} {off : Nat} {b : UInt8} (h : off < buf.length) :
    [b] = slice buf off 1 ↔ buf.getD off 0 = b := by
  rw [slice_one h 0, List.cons.injEq, and_iff_left rfl, eq_comm]

/-- A word cut out is the word read there. -/
theorem word_cut {buf : List UInt8} {w k off : Nat} {x : BitVec w} (hw : 256 ^ k = 2 ^ w)
    (h : off + k ≤ buf.length) : le k x.toNat = slice buf off k ↔ BitVec.ofNat w (unle (slice buf off k)) = x :=
  ⟨fun heq => by rw [← heq, ofNat_unle_le hw], fun heq => heq ▸ le_word_slice hw h⟩

/-- With one word of the fields set to zero where `P` holds, they still make up the stretch they were
cut from, unless it was another word before. -/
theorem flatten_cleared_iff {buf : List UInt8} {ws : List Nat} {i w k : Nat} {P : Prop} [Decidable P] {x : BitVec w}
    (hw : 256 ^ k = 2 ^ w) (h : ws.sum ≤ buf.length) (hi : ws[i]? = some k)
    (hx : x = if P then 0 else BitVec.ofNat w (unle (slice buf (ws.take i).sum k))) :
    ((cuts buf 0 ws).set i (le k x.toNat)).flatten = buf.take ws.sum ↔
      ¬P ∨ BitVec.ofNat w (unle (slice buf (ws.take i).sum k)) = 0 := by
  have hfield : (ws.take i).sum + k ≤ buf.length := by
    obtain ⟨hlt, hk⟩ := List.getElem?_eq_some_iff.mp hi
    have hsplit : ws.sum = (ws.take i).sum + (k + (ws.drop (i + 1)).sum) := by
      rw [← List.sum_cons, ← hk, ← List.drop_eq_getElem_cons hlt, ← List.sum_append, List.take_append_drop]
    omega
  rw [flatten_set_cuts_iff h hi (length_le _ _), word_cut hw hfield, hx]
  split
  case isTrue hP => exact ⟨.inr, fun hcond => hcond.resolve_left (not_not.mpr hP)⟩
  case isFalse hP => exact ⟨fun _ => .inl hP, fun _ => rfl⟩

variable {R : Type}

/-- `decode` returns the record whose fields the buffer starts with. -/
structure Reads (widths : List Nat) (ok : R → Prop) (fields : R → List (List UInt8))
    (decode : List UInt8 → Option R) : Prop where
  widths_eq : ∀ r, (fields r).map List.length = widths
  decode_iff : ∀ buf r, decode buf = some r ↔ widths.sum ≤ buf.length ∧ ok r ∧ fields r = cuts buf 0 widths

/-- A decoder that reads every field in its place, and then looks whether it admits the record. -/
theorem Reads.of_read {widths : List Nat} {ok : R → Prop} {fields : R → List (List UInt8)}
    {decode : List UInt8 → Option R} (read : List UInt8 → R) (hwidths : ∀ r, (fields r).map List.length = widths)
    (hdecode : ∀ buf r, decode buf = some r ↔ widths.sum ≤ buf.length ∧ ok r ∧ read buf = r)
    (hread : ∀ buf r, widths.sum ≤ buf.length → (fields r = cuts buf 0 widths ↔ read buf = r)) :
    Reads widths ok fields decode where
  widths_eq := hwidths
  decode_iff := fun buf r => (hdecode buf r).trans
    (and_congr_right fun hlen => and_congr_right fun _ => (hread buf r hlen).symm)

namespace Reads

variable {widths : List Nat} {ok : R → Prop} {fields : R → List (List UInt8)} {decode : List UInt8 → Option R}

theorem length_bytes (h : Reads widths ok fields decode) (r : R) : (fields r).flatten.length = widths.sum := by
  rw [List.length_flatten, h.widths_eq]

theorem decode_bytes (h : Reads widths ok fields decode) {r : R} (hr : ok r) (rest : List UInt8) :
    decode ((fields r).flatten ++ rest) = some r := by
  refine (h.decode_iff _ r).mpr ⟨?_, hr, ?_⟩
  · rw [List.length_append, h.length_bytes]
    exact Nat.le_add_right _ _
  · have hcuts := cuts_flatten (fields r) [] rest
    rw [h.widths_eq] at hcuts
    exact hcuts.symm

theorem bytes_inj (h : Reads widths ok fields decode) {r s : R} (hr : ok r) (hs : ok s)
    (heq : (fields r).flatten = (fields s).flatten) : r = s := by
  have hread := h.decode_bytes hr []
  rw [heq, h.decode_bytes hs []] at hread
  exact (Option.some.inj hread).symm

theorem bytes_of_decode (h : Reads widths ok fields decode) {buf : List UInt8} {r : R} (hdec : decode buf = some r) :
    ok r ∧ (fields r).flatten = buf.take widths.sum := by
  obtain ⟨-, hok, hfields⟩ := (h.decode_iff buf r).mp hdec
  rw [hfields, flatten_cuts, slice, List.drop_zero]
  exact ⟨hok, rfl⟩

theorem refused_iff (h : Reads widths ok fields decode) (buf : List UInt8) :
    decode buf = none ↔ ∀ r, ok r → ¬(fields r).flatten <+: buf := by
  constructor
  · rintro hnone r hr ⟨rest, rfl⟩
    rw [h.decode_bytes hr] at hnone
    cases hnone
  · intro hall
    cases hdec : decode buf with
    | none => rfl
    | some r =>
        obtain ⟨hok, hbytes⟩ := h.bytes_of_decode hdec
        exact absurd ⟨buf.drop widths.sum, by rw [hbytes, List.take_append_drop]⟩ (hall r hok)

end Reads

/-- What an encoder into a buffer and its decoder owe each other: a record is written at the
front of every buffer with room, and nothing else of the buffer changes; a buffer without room
stays as it is; what was written is read back, and what was read is written as the bytes it was
read from; a buffer is refused exactly if it begins with no record. -/
structure Inverse (len : Nat) (ok : R → Prop) (canon : ∀ {n : Nat}, R → Block n → Nat × Block n)
    (decode : List UInt8 → Option R) : Prop where
  refuses : ∀ {n : Nat} (r : R) (out : Block n), n < len → canon r out = (0, out)
  writes : ∀ {n : Nat} (r : R) (out : Block n), len ≤ n →
    (canon r out).1 = len ∧ (canon r out).2.val.drop len = out.val.drop len
  reads : ∀ {n : Nat} (r : R) (out : Block n), len ≤ n → ok r → decode (canon r out).2.val = some r
  rewrites : ∀ {n : Nat} (buf : List UInt8) (r : R) (out : Block n), len ≤ n → decode buf = some r →
    ok r ∧ (canon r out).2.val.take len = buf.take len
  refused : ∀ {n : Nat} (buf : List UInt8) (out : Block n), len ≤ n →
    (decode buf = none ↔ ∀ r, ok r → ¬(canon r out).2.val.take len <+: buf)

theorem Reads.inverse {widths : List Nat} {ok : R → Prop} {fields : R → List (List UInt8)}
    {decode : List UInt8 → Option R} (h : Reads widths ok fields decode) :
    Inverse widths.sum ok (fun r out => overwrite (fields r).flatten out) decode where
  refuses := by
    intro n r out hn
    rw [overwrite, dif_pos (by rwa [h.length_bytes])]
  writes := by
    intro n r out hn
    rw [overwrite, dif_neg (by rw [h.length_bytes]; omega)]
    refine ⟨h.length_bytes r, ?_⟩
    show ((fields r).flatten ++ out.val.drop (fields r).flatten.length).drop widths.sum = _
    rw [List.drop_left' (h.length_bytes r), h.length_bytes]
  reads := by
    intro n r out hn hr
    rw [overwrite, dif_neg (by rw [h.length_bytes]; omega)]
    exact h.decode_bytes hr _
  rewrites := by
    intro n buf r out hn hdec
    obtain ⟨hok, hbytes⟩ := h.bytes_of_decode hdec
    have htake := (overwrite_fits ((h.length_bytes r).trans_le hn) out).2
    rw [h.length_bytes] at htake
    exact ⟨hok, htake.trans hbytes⟩
  refused := by
    intro n buf out hn
    rw [h.refused_iff buf]
    refine forall_congr' fun r => imp_congr_right fun _ => ?_
    have htake := (overwrite_fits ((h.length_bytes r).trans_le hn) out).2
    rw [h.length_bytes] at htake
    rw [htake]

end Yuva.Layout
