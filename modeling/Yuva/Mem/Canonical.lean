/-
# `Yuva.Mem.Canonical` — which bytes a record's decoder accepts

`tb-encode/src/exp.rs`: `decode`, the inverse of `canon`, field by field at fixed offsets:

    decision 8 | kind 1 | feats 4 x 4 | envelope 1 | action 1 | shadow 8 | propensity 2
               | policy 1 | outcome tag 1 | outcome payload 8 | margin 2

beside the one of `corpus.rs` (`Yuva.Mem.Corpus`).  Both say that a successful decode goes
back to identical bytes, and both drop the payload that stands behind the tag of an unset
outcome, so that one record has as many encodings as there are payloads.

**Proved here.**  A record's own bytes decode to it (`Exp.decode_canonBytes`), and the bytes
of a buffer are the record's own exactly unless an unset outcome carries a payload
(`decoders_canonical_iff`).
-/
import Yuva.Mem.Corpus

namespace Yuva.Mem

open Yuva.Bytes

/-! ## Experience -/

namespace Exp

def OutcomeLabel.fromParts (tag : UInt8) (payload : BitVec 64) : Option OutcomeLabel :=
  if tag = 0 then some .unset
  else if tag = 1 then some (.reRecalled payload)
  else if tag = 2 then some (.evicted payload)
  else none

def OFF_DECISION_ID : Nat := 0
def OFF_KIND : Nat := 8
def OFF_FEATS : Nat := 9
def OFF_ENVELOPE : Nat := 25
def OFF_ACTION : Nat := 26
def OFF_SHADOW : Nat := 27
def OFF_PROPENSITY : Nat := 35
def OFF_POLICY_KIND : Nat := 37
def OFF_OUTCOME_TAG : Nat := 38
def OFF_OUTCOME_PAYLOAD : Nat := 39
def OFF_MARGIN : Nat := 47

/-- A little-endian field of `k` bytes. -/
def readWord (w k : Nat) (buf : List UInt8) (off : Nat) : BitVec w := .ofNat w (unle (slice buf off k))

/-- A short buffer or an unknown outcome is nothing; no other byte is looked at. -/
def decode (buf : List UInt8) : Option ExperienceRecord :=
  if buf.length < EXP_CANON_LEN then none
  else
    (OutcomeLabel.fromParts (buf.getD OFF_OUTCOME_TAG 0) (readWord 64 8 buf OFF_OUTCOME_PAYLOAD)).map
      fun outcome =>
        { decisionId := readWord 64 8 buf OFF_DECISION_ID
          kind := buf.getD OFF_KIND 0
          feats := Vector.ofFn fun j => readWord 32 4 buf (OFF_FEATS + j.val * 4)
          envelopeVerdict := buf.getD OFF_ENVELOPE 0
          actionTaken := buf.getD OFF_ACTION 0
          kanScoreShadow := readWord 64 8 buf OFF_SHADOW
          loggingPropensityQ := readWord 16 2 buf OFF_PROPENSITY
          loggingPolicyKind := buf.getD OFF_POLICY_KIND 0
          outcome := outcome
          marginQ := readWord 16 2 buf OFF_MARGIN }

def canonFields (r : ExperienceRecord) : List (List UInt8) :=
  [le 8 r.decisionId.toNat, [r.kind], le 4 r.feats[0]!.toNat, le 4 r.feats[1]!.toNat,
    le 4 r.feats[2]!.toNat, le 4 r.feats[3]!.toNat, [r.envelopeVerdict], [r.actionTaken], le 8 r.kanScoreShadow.toNat,
    le 2 r.loggingPropensityQ.toNat, [r.loggingPolicyKind], [r.outcome.tag], le 8 r.outcome.payload.toNat,
    le 2 r.marginQ.toNat]

/-- The widths of the fields. -/
def widths : List Nat := [8, 1, 4, 4, 4, 4, 1, 1, 8, 2, 1, 1, 8, 2]

theorem canonBytes_fields (r : ExperienceRecord) : canonBytes r = (canonFields r).flatten := by
  simp only [canonBytes, canonFields, List.flatten_cons, List.flatten_nil, List.append_nil, List.cons_append,
    List.nil_append]
  rfl

theorem fromParts_tag (o : OutcomeLabel) : OutcomeLabel.fromParts o.tag o.payload = some o := by
  cases o <;> rfl

theorem parts_of_fromParts {tag : UInt8} {payload : BitVec 64} {o : OutcomeLabel}
    (h : OutcomeLabel.fromParts tag payload = some o) :
    o.tag = tag ∧ o.payload = if tag = 0 then 0 else payload := by
  unfold OutcomeLabel.fromParts at h
  split at h
  case isTrue h0 =>
    cases h
    exact ⟨h0.symm, (if_pos h0).symm⟩
  case isFalse h0 =>
    rw [if_neg h0]
    split at h
    case isTrue h1 =>
      cases h
      exact ⟨h1.symm, rfl⟩
    case isFalse h1 =>
      split at h
      case isTrue h2 =>
        cases h
        exact ⟨h2.symm, rfl⟩
      case isFalse => cases h

section Fields

variable {r : ExperienceRecord} {buf : List UInt8}

theorem slice_canonBytes {i off n : Nat} {f : List UInt8} (hf : (canonFields r)[i]? = some f)
    (hoff : ((canonFields r).take i).flatten.length = off) (hn : f.length = n) :
    slice (canonBytes r) off n = f := by
  have hs : slice ((canonFields r).flatten ++ []) off n = f := slice_field [] hf hoff hn
  rwa [List.append_nil, ← canonBytes_fields] at hs

theorem readWord_of_slice {w k off : Nat} {x : BitVec w} (hw : 256 ^ k = 2 ^ w)
    (h : slice buf off k = le k x.toNat) : readWord w k buf off = x := by
  rw [readWord, h, ofNat_unle_le hw]

theorem decode_canonBytes (r : ExperienceRecord) : decode (canonBytes r) = some r := by
  have hlen : ¬(canonBytes r).length < EXP_CANON_LEN := by
    rw [length_canonBytes]
    exact Nat.lt_irrefl _
  have htag : (canonBytes r).getD OFF_OUTCOME_TAG 0 = r.outcome.tag :=
    getD_of_slice (slice_canonBytes (i := 11) rfl rfl rfl)
  have hpayload : readWord 64 8 (canonBytes r) OFF_OUTCOME_PAYLOAD = r.outcome.payload :=
    readWord_of_slice rfl (slice_canonBytes (i := 12) rfl rfl rfl)
  have hfeats : (Vector.ofFn fun j => readWord 32 4 (canonBytes r) (OFF_FEATS + j.val * 4)) = r.feats := by
    apply Vector.ext
    intro j hj
    rw [Vector.getElem_ofFn]
    match j, hj with
    | 0, _ => exact readWord_of_slice rfl (slice_canonBytes (i := 2) rfl rfl rfl)
    | 1, _ => exact readWord_of_slice rfl (slice_canonBytes (i := 3) rfl rfl rfl)
    | 2, _ => exact readWord_of_slice rfl (slice_canonBytes (i := 4) rfl rfl rfl)
    | 3, _ => exact readWord_of_slice rfl (slice_canonBytes (i := 5) rfl rfl rfl)
  rw [decode, if_neg hlen, htag, hpayload, fromParts_tag, hfeats, Option.map_some,
    readWord_of_slice rfl (slice_canonBytes (i := 0) rfl rfl rfl : slice _ OFF_DECISION_ID 8 = _),
    getD_of_slice (slice_canonBytes (i := 1) rfl rfl rfl : slice _ OFF_KIND 1 = _),
    getD_of_slice (slice_canonBytes (i := 6) rfl rfl rfl : slice _ OFF_ENVELOPE 1 = _),
    getD_of_slice (slice_canonBytes (i := 7) rfl rfl rfl : slice _ OFF_ACTION 1 = _),
    readWord_of_slice rfl (slice_canonBytes (i := 8) rfl rfl rfl : slice _ OFF_SHADOW 8 = _),
    readWord_of_slice rfl (slice_canonBytes (i := 9) rfl rfl rfl : slice _ OFF_PROPENSITY 2 = _),
    getD_of_slice (slice_canonBytes (i := 10) rfl rfl rfl : slice _ OFF_POLICY_KIND 1 = _),
    readWord_of_slice rfl (slice_canonBytes (i := 13) rfl rfl rfl : slice _ OFF_MARGIN 2 = _)]

/-- What was decoded is laid out as the bytes it was decoded from, but for the payload. -/
theorem canonFields_of_decode (h : decode buf = some r) :
    EXP_CANON_LEN ≤ buf.length ∧ canonFields r = (cuts buf 0 widths).set 12 (le 8 r.outcome.payload.toNat) ∧
      r.outcome.payload =
        if buf.getD OFF_OUTCOME_TAG 0 = 0 then 0 else readWord 64 8 buf OFF_OUTCOME_PAYLOAD := by
  unfold decode at h
  split at h
  · cases h
  case isFalse hshort =>
    have hlen : 49 ≤ buf.length := Nat.not_lt.mp hshort
    obtain ⟨o, ho, rfl⟩ := Option.map_eq_some_iff.mp h
    obtain ⟨htag, hpay⟩ := parts_of_fromParts ho
    refine ⟨hlen, ?_, hpay⟩
    have hone : ∀ off < 49, slice buf off 1 = [buf.getD off 0] := fun off hoff => slice_one (by omega) 0
    have hword : ∀ w k off, 256 ^ k = 2 ^ w → off + k ≤ 49 → slice buf off k = le k (readWord w k buf off).toNat :=
      fun w k off hw hoff => (le_word_slice hw (by omega)).symm
    simp only [canonFields, cuts, widths, htag, List.set_cons_succ, List.set_cons_zero, Nat.zero_add, Nat.reduceAdd,
      hone 8 (by decide), hone 25 (by decide), hone 26 (by decide), hone 37 (by decide), hone 38 (by decide),
      hword 64 8 0 rfl (by decide), hword 32 4 9 rfl (by decide), hword 32 4 13 rfl (by decide),
      hword 32 4 17 rfl (by decide), hword 32 4 21 rfl (by decide), hword 64 8 27 rfl (by decide),
      hword 16 2 35 rfl (by decide), hword 16 2 47 rfl (by decide)]
    simp only [OFF_DECISION_ID, OFF_KIND, OFF_FEATS, OFF_ENVELOPE, OFF_ACTION, OFF_SHADOW, OFF_PROPENSITY,
      OFF_POLICY_KIND, OFF_OUTCOME_TAG, OFF_MARGIN]
    rfl

/-- The record's bytes are the buffer's but for the payload, which an unset outcome drops. -/
theorem canonBytes_eq_take_iff (h : decode buf = some r) :
    canonBytes r = buf.take EXP_CANON_LEN ↔
      buf.getD OFF_OUTCOME_TAG 0 ≠ 0 ∨ readWord 64 8 buf OFF_OUTCOME_PAYLOAD = 0 := by
  obtain ⟨hlen, hfields, hpay⟩ := canonFields_of_decode h
  rw [canonBytes_fields, hfields]
  exact Layout.flatten_cleared_iff rfl hlen rfl hpay

end Fields

/-- An outcome without a payload has none in the buffer either. -/
def Plain (buf : List UInt8) : Prop :=
  buf.getD OFF_OUTCOME_TAG 0 ≠ 0 ∨ readWord 64 8 buf OFF_OUTCOME_PAYLOAD = 0

/-- Encoding the record into any buffer with room writes the bytes that it was decoded from. -/
def Reproduces (buf : List UInt8) (r : ExperienceRecord) : Prop :=
  ∀ {n : Nat} (out : Block n), EXP_CANON_LEN ≤ n →
    (canon r out).1 = EXP_CANON_LEN ∧ (canon r out).2.val.take EXP_CANON_LEN = buf.take EXP_CANON_LEN

theorem reproduces_iff {buf : List UInt8} {r : ExperienceRecord} (h : decode buf = some r) :
    Reproduces buf r ↔ Plain buf :=
  (overwrite_writes_iff (length_canonBytes r)).trans (canonBytes_eq_take_iff h)

end Exp

/-! ## Corpus -/

namespace Corpus

def Plain (buf : List UInt8) : Prop :=
  buf.getD OFF_OUTCOME_TAG 0 ≠ 0 ∨ readU64 buf OFF_OUTCOME_PAYLOAD = 0

def Reproduces (buf : List UInt8) (r : CorpusRecord) : Prop :=
  ∀ {n : Nat} (out : Block n), CORPUS_CANON_LEN ≤ n →
    (canon r out).1 = CORPUS_CANON_LEN ∧ (canon r out).2.val.take CORPUS_CANON_LEN = buf.take CORPUS_CANON_LEN

theorem reproduces_iff {buf : List UInt8} {r : CorpusRecord} (h : decode buf = some r) :
    Reproduces buf r ↔ Plain buf :=
  (overwrite_writes_iff (length_canonBytes r)).trans (canonBytes_eq_take_iff h)

end Corpus

/-- The encoder gives back the bytes of a record exactly if they are plain, so that of the
plain byte strings no two decode to one record. -/
theorem decoders_canonical_iff (buf : List UInt8) :
    (∀ r, Exp.decode buf = some r → (Exp.Reproduces buf r ↔ Exp.Plain buf)) ∧
    (∀ r, Corpus.decode buf = some r → (Corpus.Reproduces buf r ↔ Corpus.Plain buf)) ∧
    (∀ b r, Exp.decode buf = some r → Exp.decode b = some r → Exp.Plain buf → Exp.Plain b →
      buf.take Exp.EXP_CANON_LEN = b.take Exp.EXP_CANON_LEN) ∧
    ∀ b r, Corpus.decode buf = some r → Corpus.decode b = some r → Corpus.Plain buf → Corpus.Plain b →
      buf.take Corpus.CORPUS_CANON_LEN = b.take Corpus.CORPUS_CANON_LEN := by
  refine ⟨fun _ => Exp.reproduces_iff, fun _ => Corpus.reproduces_iff, ?_, ?_⟩
  · intro b r ha hb hpa hpb
    exact ((Exp.canonBytes_eq_take_iff ha).mpr hpa).symm.trans ((Exp.canonBytes_eq_take_iff hb).mpr hpb)
  · intro b r ha hb hpa hpb
    exact ((Corpus.canonBytes_eq_take_iff ha).mpr hpa).symm.trans ((Corpus.canonBytes_eq_take_iff hb).mpr hpb)

/-- A row of each log with a labelled outcome. -/
theorem decoders_canonical_labelled :
    (∃ r, Exp.decode (List.replicate 38 0 ++ [1, 7] ++ List.replicate 9 0) = some r ∧
      Exp.Reproduces (List.replicate 38 0 ++ [1, 7] ++ List.replicate 9 0) r) ∧
    ∃ r, Corpus.decode ([1, 1, 1] ++ List.replicate 57 0 ++ [2, 9] ++ List.replicate 9 0) = some r ∧
      Corpus.Reproduces ([1, 1, 1] ++ List.replicate 57 0 ++ [2, 9] ++ List.replicate 9 0) r := by
  constructor
  · obtain ⟨r, hr⟩ := Option.isSome_iff_exists.mp
      (by decide : (Exp.decode (List.replicate 38 0 ++ [1, 7] ++ List.replicate 9 0)).isSome = true)
    exact ⟨r, hr, ((decoders_canonical_iff _).1 r hr).mpr (.inl (by decide))⟩
  · obtain ⟨r, hr⟩ := Option.isSome_iff_exists.mp
      (by decide :
        (Corpus.decode ([1, 1, 1] ++ List.replicate 57 0 ++ [2, 9] ++ List.replicate 9 0)).isSome = true)
    exact ⟨r, hr, ((decoders_canonical_iff _).2.1 r hr).mpr (.inl (by decide))⟩

/-- A one in the payload behind the tag of an unset outcome. -/
theorem decoders_not_canonical :
    (∃ r, Exp.decode (List.replicate 39 0 ++ [1] ++ List.replicate 9 0) = some r ∧
      Exp.decode (List.replicate 49 0) = some r ∧
      ¬Exp.Reproduces (List.replicate 39 0 ++ [1] ++ List.replicate 9 0) r) ∧
    ∃ r, Corpus.decode ([1, 1, 1] ++ List.replicate 58 0 ++ [1] ++ List.replicate 9 0) = some r ∧
      Corpus.decode ([1, 1, 1] ++ List.replicate 68 0) = some r ∧
      ¬Corpus.Reproduces ([1, 1, 1] ++ List.replicate 58 0 ++ [1] ++ List.replicate 9 0) r := by
  constructor
  · obtain ⟨r, hr⟩ := Option.isSome_iff_exists.mp
      (by decide : (Exp.decode (List.replicate 49 0)).isSome = true)
    have hsame : Exp.decode (List.replicate 39 0 ++ [1] ++ List.replicate 9 0) = some r :=
      Eq.trans (by decide) hr
    have hpayload : ¬Exp.Plain (List.replicate 39 0 ++ [1] ++ List.replicate 9 0) := by
      rw [Exp.Plain]
      decide
    exact ⟨r, hsame, hr, mt (Exp.reproduces_iff hsame).mp hpayload⟩
  · have hsame : Corpus.decode ([1, 1, 1] ++ List.replicate 58 0 ++ [1] ++ List.replicate 9 0) =
        some ⟨1, 1, 1, 0, 0, 0, 0, zeros 32, .unset, 0⟩ := rfl
    have hpayload : ¬Corpus.Plain ([1, 1, 1] ++ List.replicate 58 0 ++ [1] ++ List.replicate 9 0) := by
      rw [Corpus.Plain]
      decide
    exact ⟨_, hsame, rfl, mt (Corpus.reproduces_iff hsame).mp hpayload⟩

end Yuva.Mem
