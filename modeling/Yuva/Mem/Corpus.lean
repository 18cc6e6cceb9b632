/-
# `Yuva.Mem.Corpus` — reading a corpus record back

`tb-encode/src/corpus.rs`: `decode`, the inverse of `canon`, and the constants of
the durable corpus.  Every field is at a fixed offset:

    schema 1 | kind 1 | stream 1 | verdict 1 | content 8 | aux 8 | created 8
             | source head 32 | outcome tag 1 | outcome payload 8 | score 2

A record with tags of the closed sets decodes from its own bytes
(`decode_canonBytes`).  The other direction fails in one place: the payload of an
unset outcome is read and dropped (`canonBytes_of_decode`).
-/
import Yuva.Lib.Layout
import Yuva.Mem.Ledger
import Yuva.Prov.Head

namespace Yuva.Mem.Corpus

open Yuva.Bytes Yuva.Hash

/-! ## The fold, under the log's own names -/

abbrev corpusHash (bytes : List UInt8) : Bytes32 := Prov.provHash bytes
abbrev corpusRecompute (leaf : Bytes32) (siblings : List Bytes32) : Bytes32 := Prov.recompute leaf siblings
abbrev corpusHeadWitness (head : Bytes32) : BitVec 64 := Prov.headWitness head

/-! ## The durable corpus -/

/-- `b"YUVA-CORPUS-M39\0"`. -/
def CORPUS_PERSIST_DOMAIN : Block 16 :=
  ⟨[0x59, 0x55, 0x56, 0x41, 0x2d, 0x43, 0x4f, 0x52, 0x50, 0x55, 0x53, 0x2d, 0x4d, 0x33, 0x39, 0x00], rfl⟩

def CORPUS_PERSIST_MAX_RECORDS : Nat := Yuva.Prov.SIG_CAP / CORPUS_CANON_LEN

/-! ## The closed sets -/

def ExampleKind.isValid (v : UInt8) : Bool :=
  v == ExampleKind.EPISODIC_CONSOLIDATION || v == ExampleKind.OPERATOR_TURN ||
    v == ExampleKind.LABELED_OUTCOME

def SourceStream.M31_INFER : UInt8 := 4

def SourceStream.isValid (v : UInt8) : Bool :=
  v == SourceStream.M13_MEM || v == SourceStream.M17_REFLECT || v == SourceStream.M25_OPERATOR ||
    v == SourceStream.M31_INFER

def CurationVerdict.isValid (v : UInt8) : Bool :=
  v == CurationVerdict.REJECTED || v == CurationVerdict.ACCEPTED

def OutcomeLabel.fromParts (tag : UInt8) (payload : BitVec 64) : Option OutcomeLabel :=
  if tag = 0 then some .unset
  else if tag = 1 then some (.positive payload)
  else if tag = 2 then some (.negative payload)
  else none

/-! ## The decoder -/

def OFF_SCHEMA_VERSION : Nat := 0
def OFF_EXAMPLE_KIND : Nat := 1
def OFF_SOURCE_STREAM : Nat := 2
def OFF_CURATION_VERDICT : Nat := 3
def OFF_CONTENT_TOK : Nat := 4
def OFF_AUX_TOK : Nat := 12
def OFF_T_CREATED : Nat := 20
def OFF_SOURCE_HEAD : Nat := 28
def OFF_OUTCOME_TAG : Nat := 60
def OFF_OUTCOME_PAYLOAD : Nat := 61
def OFF_CURATION_SCORE : Nat := 69

def readU64 (buf : List UInt8) (off : Nat) : BitVec 64 := BitVec.ofNat 64 (unle (slice buf off 8))
def readI16 (buf : List UInt8) (off : Nat) : BitVec 16 := BitVec.ofNat 16 (unle (slice buf off 2))

/-- A short buffer, another version, or a tag outside its set is nothing. -/
def decode (buf : List UInt8) : Option CorpusRecord :=
  if buf.length < CORPUS_CANON_LEN then none
  else if buf.getD OFF_SCHEMA_VERSION 0 ≠ CORPUS_SCHEMA_V1 then none
  else if !ExampleKind.isValid (buf.getD OFF_EXAMPLE_KIND 0) then none
  else if !SourceStream.isValid (buf.getD OFF_SOURCE_STREAM 0) then none
  else if !CurationVerdict.isValid (buf.getD OFF_CURATION_VERDICT 0) then none
  else
    (OutcomeLabel.fromParts (buf.getD OFF_OUTCOME_TAG 0) (readU64 buf OFF_OUTCOME_PAYLOAD)).map
      fun outcome =>
        { schemaVersion := buf.getD OFF_SCHEMA_VERSION 0
          exampleKind := buf.getD OFF_EXAMPLE_KIND 0
          sourceStream := buf.getD OFF_SOURCE_STREAM 0
          curationVerdict := buf.getD OFF_CURATION_VERDICT 0
          contentTok := readU64 buf OFF_CONTENT_TOK
          auxTok := readU64 buf OFF_AUX_TOK
          tCreated := readU64 buf OFF_T_CREATED
          sourceHead := fixed buf OFF_SOURCE_HEAD 32
          outcome := outcome
          curationScoreQ := readI16 buf OFF_CURATION_SCORE }

/-! ## Round trips -/

/-- The tags the decoder accepts. -/
structure WellTagged (r : CorpusRecord) : Prop where
  schema : r.schemaVersion = CORPUS_SCHEMA_V1
  kind : ExampleKind.isValid r.exampleKind = true
  stream : SourceStream.isValid r.sourceStream = true
  verdict : CurationVerdict.isValid r.curationVerdict = true

/-- The fields of a record, as the encoder lays them out. -/
def canonFields (r : CorpusRecord) : List (List UInt8) :=
  [[r.schemaVersion], [r.exampleKind], [r.sourceStream], [r.curationVerdict], le 8 r.contentTok.toNat,
    le 8 r.auxTok.toNat, le 8 r.tCreated.toNat, r.sourceHead.val, [r.outcome.tag],
    le 8 r.outcome.payload.toNat, le 2 r.curationScoreQ.toNat]

theorem canonBytes_fields (r : CorpusRecord) : canonBytes r = (canonFields r).flatten := by
  simp [canonBytes, canonFields]

theorem fromParts_tag (o : OutcomeLabel) : OutcomeLabel.fromParts o.tag o.payload = some o := by
  cases o <;> rfl

section roundtrip

variable {r : CorpusRecord}

theorem slice_canonBytes {i off n : Nat} {f : List UInt8} (hf : (canonFields r)[i]? = some f)
    (hoff : ((canonFields r).take i).flatten.length = off) (hn : f.length = n) :
    slice (canonBytes r) off n = f := by
  have hs : slice ((canonFields r).flatten ++ []) off n = f := slice_field [] hf hoff hn
  rwa [List.append_nil, ← canonBytes_fields] at hs

theorem decode_canonBytes (h : WellTagged r) : decode (canonBytes r) = some r := by
  have hlen : ¬ (canonBytes r).length < CORPUS_CANON_LEN := by
    rw [length_canonBytes]
    exact Nat.lt_irrefl _
  have hoff : r.sourceHead.val.length = 32 := r.sourceHead.property
  have hschema : (canonBytes r).getD OFF_SCHEMA_VERSION 0 = r.schemaVersion :=
    getD_of_slice (slice_canonBytes (i := 0) rfl rfl rfl)
  have hkind : (canonBytes r).getD OFF_EXAMPLE_KIND 0 = r.exampleKind :=
    getD_of_slice (slice_canonBytes (i := 1) rfl rfl rfl)
  have hstream : (canonBytes r).getD OFF_SOURCE_STREAM 0 = r.sourceStream :=
    getD_of_slice (slice_canonBytes (i := 2) rfl rfl rfl)
  have hverdict : (canonBytes r).getD OFF_CURATION_VERDICT 0 = r.curationVerdict :=
    getD_of_slice (slice_canonBytes (i := 3) rfl rfl rfl)
  have hcontent : slice (canonBytes r) OFF_CONTENT_TOK 8 = le 8 r.contentTok.toNat :=
    slice_canonBytes (i := 4) rfl rfl rfl
  have haux : slice (canonBytes r) OFF_AUX_TOK 8 = le 8 r.auxTok.toNat :=
    slice_canonBytes (i := 5) rfl rfl rfl
  have hcreated : slice (canonBytes r) OFF_T_CREATED 8 = le 8 r.tCreated.toNat :=
    slice_canonBytes (i := 6) rfl rfl rfl
  have hhead : fixed (canonBytes r) OFF_SOURCE_HEAD 32 = r.sourceHead := by
    have hs : slice (canonBytes r) OFF_SOURCE_HEAD 32 = r.sourceHead.val :=
      slice_canonBytes (i := 7) rfl rfl hoff
    exact Subtype.ext ((fixed_val (by rw [length_canonBytes]; decide)).trans hs)
  -- the offsets behind the source head need its length
  have htag : (canonBytes r).getD OFF_OUTCOME_TAG 0 = r.outcome.tag :=
    getD_of_slice (slice_canonBytes (i := 8) rfl (by simp [canonFields, hoff]; rfl) rfl)
  have hpayload : slice (canonBytes r) OFF_OUTCOME_PAYLOAD 8 = le 8 r.outcome.payload.toNat :=
    slice_canonBytes (i := 9) rfl (by simp [canonFields, hoff]; rfl) rfl
  have hscore : slice (canonBytes r) OFF_CURATION_SCORE 2 = le 2 r.curationScoreQ.toNat :=
    slice_canonBytes (i := 10) rfl (by simp [canonFields, hoff]; rfl) rfl
  rw [decode, if_neg hlen, hschema, hkind, hstream, hverdict, htag, hhead, if_neg (by simp [h.schema]),
    if_neg (by simp [h.kind]), if_neg (by simp [h.stream]), if_neg (by simp [h.verdict])]
  simp only [readU64, readI16, hcontent, haux, hcreated, hpayload, hscore,
    ofNat_unle_le (show 256 ^ 8 = 2 ^ 64 from rfl), ofNat_unle_le (show 256 ^ 2 = 2 ^ 16 from rfl),
    fromParts_tag, Option.map_some]

end roundtrip

theorem parts_of_fromParts {tag : UInt8} {payload : BitVec 64} {o : OutcomeLabel}
    (h : OutcomeLabel.fromParts tag payload = some o) :
    o.tag = tag ∧ o.payload = if tag = 0 then 0 else payload := by
  unfold OutcomeLabel.fromParts at h
  split at h
  · rename_i h0
    cases h
    exact ⟨h0.symm, (if_pos h0).symm⟩
  · rename_i h0
    rw [if_neg h0]
    split at h
    · rename_i h1
      cases h
      exact ⟨h1.symm, rfl⟩
    · split at h
      · rename_i h2
        cases h
        exact ⟨h2.symm, rfl⟩
      · cases h

/-- The widths of the fields. -/
def widths : List Nat := [1, 1, 1, 1, 8, 8, 8, 32, 1, 8, 2]

section decoded

variable {buf : List UInt8} {r : CorpusRecord}

/-- What was decoded is laid out as the bytes it was decoded from, but for the payload. -/
theorem canonFields_of_decode (h : decode buf = some r) :
    CORPUS_CANON_LEN ≤ buf.length ∧ canonFields r = (cuts buf 0 widths).set 9 (le 8 r.outcome.payload.toNat) ∧
      r.outcome.tag = buf.getD OFF_OUTCOME_TAG 0 ∧
      r.outcome.payload = if buf.getD OFF_OUTCOME_TAG 0 = 0 then 0 else readU64 buf OFF_OUTCOME_PAYLOAD := by
  unfold decode at h
  split at h
  · cases h
  rename_i hshort
  have hlen : 71 ≤ buf.length := Nat.not_lt.mp hshort
  -- the version and the three tags passed
  split at h
  · cases h
  split at h
  · cases h
  split at h
  · cases h
  split at h
  · cases h
  obtain ⟨o, ho, rfl⟩ := Option.map_eq_some_iff.mp h
  obtain ⟨htag, hpay⟩ := parts_of_fromParts ho
  refine ⟨hlen, ?_, htag, hpay⟩
  have hone : ∀ off < 71, slice buf off 1 = [buf.getD off 0] := fun off hoff => slice_one (by omega) 0
  have hword : ∀ off, off + 8 ≤ 71 → slice buf off 8 = le 8 (readU64 buf off).toNat :=
    fun off hoff => (le_word_slice rfl (by omega)).symm
  have hscore : slice buf 69 2 = le 2 (readI16 buf 69).toNat := (le_word_slice rfl (by omega)).symm
  have hhead : slice buf 28 32 = (fixed buf 28 32).val := (fixed_val (by omega)).symm
  simp only [cuts, widths, canonFields, htag, List.set_cons_succ, List.set_cons_zero, Nat.zero_add, Nat.reduceAdd,
    hone _ (by decide : 0 < 71), hone _ (by decide : 1 < 71), hone _ (by decide : 2 < 71),
    hone _ (by decide : 3 < 71), hone _ (by decide : 60 < 71), hword _ (by decide : 4 + 8 ≤ 71),
    hword _ (by decide : 12 + 8 ≤ 71), hword _ (by decide : 20 + 8 ≤ 71), hscore, hhead]
  rfl

/-- The record's bytes are the buffer's but for the payload, which an unset outcome drops. -/
theorem canonBytes_eq_take_iff (h : decode buf = some r) :
    canonBytes r = buf.take CORPUS_CANON_LEN ↔
      buf.getD OFF_OUTCOME_TAG 0 ≠ 0 ∨ readU64 buf OFF_OUTCOME_PAYLOAD = 0 := by
  obtain ⟨hlen, hfields, -, hpay⟩ := canonFields_of_decode h
  rw [canonBytes_fields, hfields]
  exact Layout.flatten_cleared_iff rfl hlen rfl hpay

/-- What the decoder takes, the encoder writes again, but for the payload of an
unset outcome. -/
theorem canonBytes_of_decode (hlen : buf.length = CORPUS_CANON_LEN) (h : decode buf = some r) :
    canonBytes r = buf ∨ r.outcome = .unset ∧ readU64 buf OFF_OUTCOME_PAYLOAD ≠ 0 := by
  have htake : buf.take CORPUS_CANON_LEN = buf := List.take_of_length_le hlen.le
  have hiff := canonBytes_eq_take_iff h
  rw [htake] at hiff
  refine or_iff_not_imp_left.mpr fun hne => ?_
  obtain ⟨htag, hpayload⟩ := not_or.mp (mt hiff.mpr hne)
  obtain ⟨-, -, hsame, -⟩ := canonFields_of_decode h
  refine ⟨?_, hpayload⟩
  rw [not_not.mp htag] at hsame
  cases hr : r.outcome with
  | unset => rfl
  | positive v =>
      rw [hr] at hsame
      cases hsame
  | negative v =>
      rw [hr] at hsame
      cases hsame

end decoded

end Yuva.Mem.Corpus
