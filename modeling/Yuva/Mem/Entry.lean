/-
# `Yuva.Mem.Entry` — a provenance entry stored into a buffer

`canon_len` and `canon` of `tb-encode/src/prov.rs` with the stores they are made of.  `none`
is a panic, and no run ends there: `canon_eq` says that the stores leave the bytes of
`Prov.canonBytes` at the front of the buffer, or nothing of the buffer changed where the
entry does not fit.

    [0]  [1]   [2..10]      [10..18]       [18..26]   [26..34]   [34..]
    kind tier  payload_tok  writer_cap_id  t_created  n_parents  parent_ids, 32 bytes each

**Proved here.**  The bytes determine the entry (`canonBytes_injective`), whatever the number
of its parents: the scalars stand at fixed places, and the length of the tail counts the
parents even where the eight bytes of `n_parents` could not.
-/
import Yuva.Lib.Machine
import Yuva.Lib.Stores
import Yuva.Mem.Ledger

namespace Yuva.Mem.Entry

open Yuva.Bytes Yuva.Checked Yuva.Hash Yuva.Machine Yuva.Stores
open Prov (ProvEntry CANON_PREFIX_LEN PROV_HASH_LEN canonBytes length_canonBytes)

/-- A slice: no object has `2 ^ 63` bytes or more. -/
abbrev Slice := { bytes : List UInt8 // bytes.length < 2 ^ 63 }

def canonLen (e : ProvEntry) : Nat := satU 64 (CANON_PREFIX_LEN + satU 64 (e.parentIds.length * PROV_HASH_LEN))

/-- One turn of the loop over the eight bytes of the four words. -/
def storeWords (pt wc tc np : List UInt8) (i : Nat) (out : List UInt8) : Option (List UInt8) := do
  let out ← storeByte pt 2 i out
  let out ← storeByte wc 10 i out
  let out ← storeByte tc 18 i out
  storeByte np 26 i out

/-- One turn of the loop over the parents. -/
def storeParent (ids : List Bytes32) (p : Nat) (out : List UInt8) : Option (List UInt8) := do
  let tail ← word (p * PROV_HASH_LEN)
  let base ← word (CANON_PREFIX_LEN + tail)
  let id ← ids[p]?
  copyLoop id.val PROV_HASH_LEN out base

/-- The number of bytes written, and the buffer. -/
def canon (e : ProvEntry) (out : List UInt8) : Option (Nat × List UInt8) :=
  let n := e.parentIds.length
  let total := canonLen e
  if out.length < total then some (0, out)
  else do
    let out ← setAt out 0 e.kind
    let out ← setAt out 1 e.tier
    let pt := le 8 e.payloadTok.toNat
    let wc := le 8 e.writerCapId.toNat
    let tc := le 8 e.tCreated.toNat
    let np := le 8 n
    let out ← turns (storeWords pt wc tc np) 0 8 out
    let out ← turns (storeParent e.parentIds) 0 n out
    return (total, out)

/-! ## The stores -/

/-- The four words side by side are the four words one behind the other. -/
theorem turns_storeWords {a out : List UInt8} (pt wc tc np : Block 8) (ha : a.length = 2) (hout : 34 ≤ out.length) :
    turns (storeWords pt.val wc.val tc.val np.val) 0 8 (splice out 0 a) =
      some (splice out 0 (a ++ pt.val ++ wc.val ++ tc.val ++ np.val)) := by
  have hpt := pt.property
  have hwc := wc.property
  have htc := tc.property
  have hnp := np.property
  have hbody : storeWords pt.val wc.val tc.val np.val = fun i out =>
      ((storeByte pt.val 2 i out >>= storeByte wc.val 10 i) >>= storeByte tc.val 18 i) >>= storeByte np.val 26 i := by
    funext i out
    simp only [storeWords, bind_assoc]
  have hfirst : ∀ s, turns (fun i out => storeByte pt.val 2 i out >>= storeByte wc.val 10 i) 0 8 s =
      (turns (storeByte pt.val 2) 0 8 s >>= turns (storeByte wc.val 10) 0 8) :=
    turns_seq fun j k hj hk => storeByte_comm (by omega)
  have hsecond : ∀ s, turns (fun i out => (storeByte pt.val 2 i out >>= storeByte wc.val 10 i) >>=
      storeByte tc.val 18 i) 0 8 s = (turns (fun i out => storeByte pt.val 2 i out >>= storeByte wc.val 10 i) 0 8 s >>=
        turns (storeByte tc.val 18) 0 8) :=
    turns_seq fun j k hj hk => .bind (storeByte_comm (by omega)) (storeByte_comm (by omega))
  have hthird : ∀ s, turns (fun i out => ((storeByte pt.val 2 i out >>= storeByte wc.val 10 i) >>=
      storeByte tc.val 18 i) >>= storeByte np.val 26 i) 0 8 s =
        (turns (fun i out => (storeByte pt.val 2 i out >>= storeByte wc.val 10 i) >>=
          storeByte tc.val 18 i) 0 8 s >>= turns (storeByte np.val 26) 0 8) :=
    turns_seq fun j k hj hk =>
      .bind (.bind (storeByte_comm (by omega)) (storeByte_comm (by omega))) (storeByte_comm (by omega))
  rw [hbody, hthird, hsecond, hfirst, turns_storeByte, ← copyLoop,
    copyLoop_front 2 ha hpt (by omega), some_bind, turns_storeByte, ← copyLoop,
    copyLoop_front 10 (by simp [ha, hpt]) hwc (by omega), some_bind, turns_storeByte, ← copyLoop,
    copyLoop_front 18 (by simp [ha, hpt, hwc]) htc (by omega), some_bind, turns_storeByte, ← copyLoop,
    copyLoop_front 26 (by simp [ha, hpt, hwc, htc]) hnp (by omega)]

theorem storeParent_eq {ids : List Bytes32} {p : Nat} {id : Bytes32} {a out : List UInt8} (hid : ids[p]? = some id)
    (ha : a.length = CANON_PREFIX_LEN + p * PROV_HASH_LEN) (hout : a.length + PROV_HASH_LEN ≤ out.length)
    (hlt : out.length < 2 ^ 63) :
    storeParent ids p (splice out 0 a) = some (splice out 0 (a ++ id.val)) := by
  rw [storeParent, word_eq (by omega), some_bind, word_eq (by omega), some_bind, hid, some_bind]
  exact copyLoop_front _ ha id.property (by omega)

/-- Each turn puts one more parent behind what is there. -/
theorem turns_storeParent {ids : List Bytes32} {p n : Nat} {a out : List UInt8} (hn : p + n = ids.length)
    (ha : a.length = CANON_PREFIX_LEN + p * PROV_HASH_LEN)
    (hout : CANON_PREFIX_LEN + ids.length * PROV_HASH_LEN ≤ out.length) (hlt : out.length < 2 ^ 63) :
    turns (storeParent ids) p n (splice out 0 a) =
      some (splice out 0 (a ++ ((ids.drop p).map Subtype.val).flatten)) := by
  have hwidth : PROV_HASH_LEN = 32 := rfl
  induction n generalizing p a with
  | zero => rw [turns, List.drop_of_length_le (by omega), List.map_nil, List.flatten_nil, List.append_nil]
  | succ n ih =>
      have hp : p < ids.length := by omega
      have hnext : (a ++ ids[p].val).length = CANON_PREFIX_LEN + (p + 1) * PROV_HASH_LEN := by
        rw [List.length_append, ids[p].property, ha, hwidth]
        omega
      have hroom : a.length + PROV_HASH_LEN ≤ out.length := by
        rw [hwidth] at ha hout ⊢
        omega
      rw [turns, storeParent_eq (List.getElem?_eq_getElem hp) ha hroom hlt, some_bind,
        ih (by omega) hnext, List.drop_eq_getElem_cons hp, List.map_cons, List.flatten_cons, List.append_assoc]

theorem canonLen_eq {e : ProvEntry} (h : canonLen e < 2 ^ 63) : canonLen e = Prov.canonLen e := by
  have hwidth : PROV_HASH_LEN = 32 := rfl
  have hfront : CANON_PREFIX_LEN = 34 := rfl
  simp only [canonLen, satU] at h
  simp only [canonLen, Prov.canonLen, satU]
  omega

/-- The stores are the overwriting of the front of the buffer, or nothing. -/
theorem canon_eq (e : ProvEntry) {out : List UInt8} (hlt : out.length < 2 ^ 63) :
    canon e out = some (if out.length < canonLen e then (0, out) else (canonLen e, splice out 0 (canonBytes e))) := by
  rw [canon]
  by_cases hfits : out.length < canonLen e
  · rw [if_pos hfits, if_pos hfits]
  · have hlen := canonLen_eq (e := e) (by omega)
    have hroom : CANON_PREFIX_LEN + e.parentIds.length * PROV_HASH_LEN ≤ out.length := by
      rw [Prov.canonLen] at hlen
      omega
    have hfront : CANON_PREFIX_LEN = 34 := rfl
    have hwords := turns_storeWords (a := [e.kind, e.tier]) ⟨le 8 e.payloadTok.toNat, length_le 8 _⟩
      ⟨le 8 e.writerCapId.toNat, length_le 8 _⟩ ⟨le 8 e.tCreated.toNat, length_le 8 _⟩
      ⟨le 8 e.parentIds.length, length_le 8 _⟩ rfl (by omega : 34 ≤ out.length)
    have htail := turns_storeParent (p := 0) (a := [e.kind, e.tier] ++ le 8 e.payloadTok.toNat ++
      le 8 e.writerCapId.toNat ++ le 8 e.tCreated.toNat ++ le 8 e.parentIds.length)
      (by omega : 0 + e.parentIds.length = e.parentIds.length) (by simp [hfront]) hroom hlt
    rw [if_neg hfits, if_neg hfits, setAt_eq (by omega), some_bind, setAt_front 1 rfl (by omega), some_bind]
    show (turns (storeWords _ _ _ _) 0 8 (splice out 0 [e.kind, e.tier]) >>= _) = _
    rw [hwords, some_bind, htail, some_bind]
    simp [canonBytes]

/-! ## The bytes determine the entry -/

theorem map_val_inj {ids ids' : List Bytes32} (hlen : ids.length = ids'.length)
    (h : (ids.map Subtype.val).flatten = (ids'.map Subtype.val).flatten) : ids = ids' := by
  induction ids generalizing ids' with
  | nil => exact (List.length_eq_zero_iff.mp hlen.symm).symm
  | cons id ids ih =>
      cases ids' with
      | nil => cases hlen
      | cons id' ids' =>
          rw [List.map_cons, List.flatten_cons, List.map_cons, List.flatten_cons] at h
          obtain ⟨hid, hids⟩ := List.append_inj h (id.property.trans id'.property.symm)
          rw [Subtype.ext hid, ih (Nat.succ.inj hlen) hids]

theorem canonBytes_injective : Function.Injective canonBytes := by
  intro e e' h
  have hcount : e.parentIds.length = e'.parentIds.length := by
    have hlen := congrArg List.length h
    rw [length_canonBytes, length_canonBytes, Prov.canonLen, Prov.canonLen, PROV_HASH_LEN] at hlen
    omega
  obtain ⟨hhead, htail⟩ := List.append_inj h rfl
  obtain ⟨htok, htail⟩ := List.append_inj htail (by simp)
  obtain ⟨hcap, htail⟩ := List.append_inj htail (by simp)
  obtain ⟨htime, htail⟩ := List.append_inj htail (by simp)
  obtain ⟨-, hids⟩ := List.append_inj htail (by simp)
  cases e
  cases e'
  simp only [List.cons.injEq, and_true] at hhead
  simp only [ProvEntry.mk.injEq]
  exact ⟨hhead.1, le_toNat_inj (by decide) htok, hhead.2, le_toNat_inj (by decide) hcap,
    le_toNat_inj (by decide) htime, map_val_inj hcount hids⟩

/-- What one run leaves. -/
theorem canon_cases (e : ProvEntry) (out : Slice) :
    out.val.length < canonLen e ∧ canon e out.val = some (0, out.val) ∨
      canonLen e ≤ out.val.length ∧ (canonBytes e).length = canonLen e ∧
        canon e out.val = some (canonLen e, splice out.val 0 (canonBytes e)) := by
  have hlt := out.property
  rw [canon_eq e hlt]
  by_cases hfits : out.val.length < canonLen e
  · exact .inl ⟨hfits, congrArg some (if_pos hfits)⟩
  · exact .inr ⟨Nat.le_of_not_lt hfits, (length_canonBytes e).trans (canonLen_eq (by omega)).symm,
      congrArg some (if_neg hfits)⟩

theorem take_of_canon {e : ProvEntry} {out : Slice} {n : Nat} {w : List UInt8} (h : canon e out.val = some (n, w))
    (hn : 0 < n) : w.take n = canonBytes e := by
  rcases canon_cases e out with ⟨-, hrun⟩ | ⟨-, hlen, hrun⟩
  · cases h.symm.trans hrun
    exact absurd hn (Nat.lt_irrefl 0)
  · cases h.symm.trans hrun
    rw [splice, List.take_zero, List.nil_append, List.take_left' hlen]

/-- `canon` writes the bytes of the entry, as many as `canon_len` says, or nothing; and equal
bytes are equal entries, field by field. -/
theorem canon_exact_injective :
    (∀ (e : ProvEntry) (out : Slice), ∃ n out', canon e out.val = some (n, out') ∧ out'.length = out.val.length ∧
      (canonLen e ≤ out.val.length ∧ n = canonLen e ∧ out'.take n = canonBytes e ∧ out'.drop n = out.val.drop n ∨
        out.val.length < canonLen e ∧ n = 0 ∧ out' = out.val)) ∧
    (∀ (e e' : ProvEntry) (out out' : Slice) (n n' : Nat) (w w' : List UInt8),
      canon e out.val = some (n, w) → canon e' out'.val = some (n', w') → 0 < n → w.take n = w'.take n' → e = e') ∧
    (∀ e e' : ProvEntry, canonBytes e = canonBytes e' →
      e.kind = e'.kind ∧ e.tier = e'.tier ∧ e.payloadTok = e'.payloadTok ∧ e.writerCapId = e'.writerCapId ∧
        e.tCreated = e'.tCreated ∧ e.parentIds = e'.parentIds) := by
  refine ⟨?_, ?_, ?_⟩
  · intro e out
    rcases canon_cases e out with ⟨hshort, hrun⟩ | ⟨hfits, hlen, hrun⟩
    · exact ⟨0, out.val, hrun, rfl, .inr ⟨hshort, rfl, rfl⟩⟩
    · refine ⟨_, _, hrun, length_splice (by omega), .inl ⟨hfits, rfl, ?_, ?_⟩⟩
      · rw [splice, List.take_zero, List.nil_append, List.take_left' hlen]
      · rw [splice, List.take_zero, List.nil_append, List.drop_left' hlen, Nat.zero_add, hlen]
  · intro e e' out out' n n' w w' hrun hrun' hn heq
    have hbytes : canonBytes e = w'.take n' := (take_of_canon hrun hn).symm.trans heq
    have hn' : 0 < n' := by
      apply Nat.pos_of_ne_zero
      rintro rfl
      cases hbytes
    exact canonBytes_injective (hbytes.trans (take_of_canon hrun' hn'))
  · intro e e' h
    rw [canonBytes_injective h]
    exact ⟨rfl, rfl, rfl, rfl, rfl, rfl⟩

end Yuva.Mem.Entry
