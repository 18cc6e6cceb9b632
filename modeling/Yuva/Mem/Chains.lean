/-
# `Yuva.Mem.Chains` — the three logs are hash chains

Each log keeps a head, a list of ids and, for two of them, the encoded records,
and every operation that appends updates them one after the other.  What they are
for is a `History`: the provenance entries, the observations and the corpus
examples, in order.  `Keeps l h` says that all ten fields of the logs `l` are read
off the history `h`.

    provenance   ids are the digests of the entries, each parented on the one before
    experience   ids are the digests of the observations; the ring is their last rows
    corpus       ids are the digests of the rows; the verdicts are counted

    an append to one log extends the history by one record    (`kept_ledgerAppend`, `kept_xpRecord`,
                                                               `kept_corpusEmit`)
    everything else leaves the logs alone                     (`kept_step`)
-/
import Yuva.Hash.Feed
import Yuva.Lib.Chain
import Yuva.Lib.Ring
import Yuva.Lib.Update
import Yuva.Mem.Organ

namespace Yuva.Mem

open Yuva.Bytes Yuva.Hash Yuva.Machine Yuva.Ring Yuva.Run MemSubstrate

/-! ## Records and their ids -/

namespace Prov

theorem provHash_eq_rfc : provHash = rfcDigest none := uhash_eq_rfc

def entryId (e : ProvEntry) : Bytes32 := provHash (canonBytes e)

theorem append_eq {n : Nat} {e : ProvEntry} (h : canonLen e ≤ n) (hd : Bytes32) (scratch : Block n) :
    append hd e scratch = some (chainMix hd (entryId e), entryId e) := by
  have hlen := length_canonBytes e
  obtain ⟨hk, htake⟩ := overwrite_fits (hlen.trans_le h) scratch
  have hne : (overwrite (canonBytes e) scratch).1 ≠ 0 := by
    rw [hk, hlen, canonLen, CANON_PREFIX_LEN]
    omega
  show (if (overwrite (canonBytes e) scratch).1 = 0 then none
    else some (chainMix hd (provHash ((overwrite (canonBytes e) scratch).2.val.take
        (overwrite (canonBytes e) scratch).1)),
      provHash ((overwrite (canonBytes e) scratch).2.val.take
        (overwrite (canonBytes e) scratch).1))) = _
  rw [if_neg hne, hk, htake]
  rfl

/-- Every entry names the one before it as its only parent; the first names none. -/
def Linked (es : List ProvEntry) : Prop :=
  ∀ {i : Nat} {e : ProvEntry}, es[i]? = some e → e.parentIds = ((es.take i).getLast?.map entryId).toList

theorem linked_snoc {es : List ProvEntry} {e : ProvEntry} (h : Linked es)
    (he : e.parentIds = (es.getLast?.map entryId).toList) : Linked (es ++ [e]) := by
  intro i x hx
  rcases Nat.lt_trichotomy i es.length with hi | rfl | hi
  · rw [List.getElem?_append_left hi] at hx
    rw [List.take_append_of_le_length (Nat.le_of_lt hi)]
    exact h hx
  · rw [List.getElem?_concat_length] at hx
    rw [List.take_left, ← Option.some.inj hx]
    exact he
  · rw [List.getElem?_eq_none (by rw [List.length_append, List.length_singleton]; omega)] at hx
    cases hx

/-- The bytes one step of the fold hashes. -/
def mixBytes (p : Bytes32 × Bytes32) : List UInt8 := MIX_DOMAIN :: (p.1.val ++ p.2.val)

theorem mixBytes_injective : Function.Injective mixBytes := by
  rintro ⟨h, d⟩ ⟨h', d'⟩ heq
  have hval := (List.cons.inj heq).2
  obtain ⟨hh, hd⟩ := List.append_inj hval (h.property.trans h'.property.symm)
  exact Prod.ext (Subtype.ext hh) (Subtype.ext hd)

/-- Everything the fold over `ids` hashes. -/
def folded (ids : List Bytes32) : List (List UInt8) := (Chain.inputs chainMix genesis ids).map mixBytes

/-- The hash separates what the two folds hash. -/
def Separates (ids ids' : List Bytes32) : Prop :=
  ∀ x ∈ folded ids, ∀ y ∈ folded ids', provHash x = provHash y → x = y

instance (ids ids' : List Bytes32) : Decidable (Separates ids ids') :=
  inferInstanceAs (Decidable (∀ x ∈ folded ids, ∀ y ∈ folded ids', provHash x = provHash y → x = y))

-- Two ledgers of one entry that the hash tells apart.
example : Separates [⟨List.replicate 32 0, List.length_replicate⟩] [⟨List.replicate 32 1, List.length_replicate⟩] := by
  rw [Separates, provHash_eq_rfc]
  decide +kernel

theorem Separates.collisionFree {ids ids' : List Bytes32} (h : Separates ids ids') :
    Chain.CollisionFree chainMix (Chain.inputs chainMix genesis ids)
      (Chain.inputs chainMix genesis ids') :=
  fun _ hp _ hq heq =>
    mixBytes_injective (h _ (List.mem_map_of_mem hp) _ (List.mem_map_of_mem hq) heq)

/-- The head of a chain with these ids. -/
def headOf (ids : List Bytes32) : Bytes32 := Chain.head chainMix genesis ids

theorem verifyInclusion_iff (leaf : Bytes32) (siblings : List Bytes32) (hd : Bytes32) :
    verifyInclusion leaf siblings hd = true ↔ headOf (leaf :: siblings) = hd := beq_iff_eq

end Prov

namespace Exp

/-- The fixed-width encoding of an observation. -/
def row (r : ExperienceRecord) : Block EXP_CANON_LEN := ⟨canonBytes r, length_canonBytes r⟩

def recordId (r : ExperienceRecord) : Bytes32 := Prov.provHash (row r).val

end Exp

namespace Corpus

def row (r : CorpusRecord) : Block CORPUS_CANON_LEN := ⟨canonBytes r, length_canonBytes r⟩

def recordId (r : CorpusRecord) : Bytes32 := Prov.provHash (row r).val

theorem corpusAppend_eq (r : CorpusRecord) (hd : Bytes32) (scratch : Block CORPUS_CANON_LEN) :
    corpusAppend hd r scratch = (some (Prov.chainMix hd (recordId r), recordId r), row r) := by
  simp only [corpusAppend, canon, overwrite_full (length_canonBytes r)]
  rw [if_neg (by decide), List.take_of_length_le (Nat.le_of_eq (length_canonBytes r))]
  rfl

def isAccepted (r : CorpusRecord) : Bool := r.curationVerdict == CurationVerdict.ACCEPTED

end Corpus

/-! ## The drop-oldest ring -/

namespace Exp.ExpRing

variable {CAP LEN : Nat}

/-- The ring holds the last `CAP` of the rows pushed so far, oldest first. -/
structure Window (q : ExpRing CAP LEN) (rows : List (Block LEN)) : Prop where
  len : q.len = min rows.length CAP
  front : q.len < CAP → q.head = 0
  head : q.head < CAP
  held : ∀ i, i < q.len → q.rows[(q.head + i) % CAP]? = rows[rows.length - q.len + i]?

theorem window_new (h : 0 < CAP) : Window (new : ExpRing CAP LEN) [] where
  len := by rw [List.length_nil, Nat.zero_min]; rfl
  front _ := rfl
  head := h
  held i hi := absurd hi (Nat.not_lt_zero i)

theorem Window.holds {q : ExpRing CAP LEN} {rows : List (Block LEN)} (h : Window q rows) :
    Holds q.rows q.head q.len (rows.drop (rows.length - CAP)) where
  count := by
    rw [List.length_drop, h.len]
    omega
  fits := h.len ▸ Nat.min_le_right _ _
  held := by
    intro i hi
    have hlen := h.len
    rw [h.held i hi, List.getElem?_drop, show rows.length - q.len = rows.length - CAP by omega]

theorem window_of_holds {q : ExpRing CAP LEN} {rows : List (Block LEN)}
    (h : Holds q.rows q.head q.len (rows.drop (rows.length - CAP))) (hlen : q.len = min rows.length CAP)
    (hfront : q.len < CAP → q.head = 0) (hhead : q.head < CAP) : Window q rows where
  len := hlen
  front := hfront
  head := hhead
  held := by
    intro i hi
    rw [h.held i hi, List.getElem?_drop, show rows.length - CAP = rows.length - q.len by omega]

theorem Window.push {q : ExpRing CAP LEN} {rows : List (Block LEN)} (h : Window q rows)
    (row : Block LEN) : Window (q.push row).2 (rows ++ [row]) := by
  have hpos : 0 < CAP := Nat.lt_of_le_of_lt (Nat.zero_le _) h.head
  have hlen := h.len
  have hnext : (rows ++ [row]).length = rows.length + 1 := List.length_append
  rw [ExpRing.push, if_neg (Nat.ne_of_gt hpos)]
  by_cases hfull : q.len < CAP
  · -- the head is still zero and no row has been dropped
    rw [if_pos hfull]
    refine window_of_holds (h.holds.push_newest hfull row) ?_ (fun _ => h.front hfull) h.head
    show q.len + 1 = _
    omega
  · -- the oldest row gives way to the new one
    have hcap : q.len = CAP := by omega
    rw [if_neg hfull]
    refine window_of_holds (h.holds.shift_newest hcap h.head row) ?_ (fun hlt => absurd hlt hfull) (Nat.mod_lt _ hpos)
    show q.len = _
    omega

theorem Window.get {q : ExpRing CAP LEN} {rows : List (Block LEN)} (h : Window q rows) (i : Nat) :
    q.get i = (rows.drop (rows.length - CAP))[i]? := by
  have hhead := h.head
  rw [ExpRing.get]
  by_cases hi : i < q.len
  · rw [if_neg (by omega)]
    exact h.holds.get hi
  · rw [if_pos (by omega), List.getElem?_eq_none (by rw [← h.holds.count]; omega)]

end Exp.ExpRing

/-! ## The logs and their history -/

/-- The part of a substrate that only the three appends touch. -/
structure Logs where
  chainHead : Bytes32
  ledgerIds : List Bytes32
  xpHead : Bytes32
  xpRing : Exp.ExpRing XP_CAP Exp.EXP_CANON_LEN
  xpIds : List Bytes32
  corpusHead : Bytes32
  corpusIds : List Bytes32
  corpusRecords : List (Block Corpus.CORPUS_CANON_LEN)
  corpusAccepted : Nat
  corpusRejected : Nat

def logs (s : MemSubstrate) : Logs :=
  ⟨s.chainHead, s.ledgerIds, s.xpHead, s.xpRing, s.xpIds, s.corpusHead, s.corpusIds, s.corpusRecords,
    s.corpusAccepted, s.corpusRejected⟩

/-- What was appended, in order. -/
structure History where
  entries : List Prov.ProvEntry
  observations : List Exp.ExperienceRecord
  curated : List Corpus.CorpusRecord

structure Keeps (l : Logs) (h : History) : Prop where
  linked : Prov.Linked h.entries
  ledgerIds : l.ledgerIds = h.entries.map Prov.entryId
  chainHead : l.chainHead = Prov.headOf l.ledgerIds
  xpIds : l.xpIds = h.observations.map Exp.recordId
  xpHead : l.xpHead = Prov.headOf l.xpIds
  xpRing : l.xpRing.Window (h.observations.map Exp.row)
  corpusIds : l.corpusIds = h.curated.map Corpus.recordId
  corpusHead : l.corpusHead = Prov.headOf l.corpusIds
  corpusRecords : l.corpusRecords = h.curated.map Corpus.row
  accepted : l.corpusAccepted = satU 64 (h.curated.countP Corpus.isAccepted)
  rejected : l.corpusRejected = satU 64 (h.curated.countP fun r => !Corpus.isAccepted r)

/-- The logs of a substrate are those of some history. -/
def Kept (s : MemSubstrate) : Prop := ∃ h, Keeps (logs s) h

theorem Kept.of_logs {s s' : MemSubstrate} (hk : Kept s) (h : logs s' = logs s) : Kept s' := by
  obtain ⟨hist, hh⟩ := hk
  exact ⟨hist, h ▸ hh⟩

theorem kept_new : Kept new := by
  refine ⟨⟨[], [], []⟩, ?_⟩
  exact
    { linked := fun h => by cases h
      ledgerIds := rfl
      chainHead := rfl
      xpIds := rfl
      xpHead := rfl
      xpRing := Exp.ExpRing.window_new (by decide)
      corpusIds := rfl
      corpusHead := rfl
      corpusRecords := rfl
      accepted := rfl
      rejected := rfl }

/-! ## The three appends -/

/-- The entry `ledgerAppend` enters, parented on the one before. -/
def entryAt (s : MemSubstrate) (kind : UInt8) (tok : BitVec 64) (tier : UInt8) (writer : BitVec 64) :
    Prov.ProvEntry :=
  { kind := kind, payloadTok := tok, tier := tier, writerCapId := writer, tCreated := s.clock
    parentIds := s.parentOfHead }

/-- With at most one parent an entry fits the scratch, so no append is lost. -/
theorem ledgerAppend_eq (s : MemSubstrate) (kind : UInt8) (tok : BitVec 64) (tier : UInt8)
    (writer : BitVec 64) :
    s.ledgerAppend kind tok tier writer s.parentOfHead =
      (some (Prov.entryId (entryAt s kind tok tier writer)), { s with
        chainHead := Prov.chainMix s.chainHead (Prov.entryId (entryAt s kind tok tier writer))
        ledgerIds := s.ledgerIds ++ [Prov.entryId (entryAt s kind tok tier writer)] }) := by
  have hparents : s.parentOfHead.length ≤ 1 := by
    rw [parentOfHead]
    cases s.ledgerIds.getLast? with
    | none => exact Nat.zero_le 1
    | some id => exact Nat.le_refl 1
  have hfits : Prov.canonLen (entryAt s kind tok tier writer) ≤ PROV_SCRATCH := by
    show Prov.CANON_PREFIX_LEN + s.parentOfHead.length * Prov.PROV_HASH_LEN ≤ PROV_SCRATCH
    rw [Prov.CANON_PREFIX_LEN, Prov.PROV_HASH_LEN, PROV_SCRATCH]
    omega
  have hentry : (⟨kind, tok, tier, writer, s.clock, s.parentOfHead⟩ : Prov.ProvEntry) =
      entryAt s kind tok tier writer := rfl
  rw [ledgerAppend, hentry, Prov.append_eq hfits]

theorem kept_ledgerAppend {s : MemSubstrate} (hk : Kept s) (kind : UInt8) (tok : BitVec 64)
    (tier : UInt8) (writer : BitVec 64) :
    Kept (s.ledgerAppend kind tok tier writer s.parentOfHead).2 := by
  obtain ⟨h, hh⟩ := hk
  have hids : s.ledgerIds = h.entries.map Prov.entryId := hh.ledgerIds
  have hhead : s.chainHead = Prov.headOf s.ledgerIds := hh.chainHead
  rw [ledgerAppend_eq]
  refine ⟨{ h with entries := h.entries ++ [entryAt s kind tok tier writer] }, ?_⟩
  refine { hh with linked := ?_, ledgerIds := ?_, chainHead := ?_ }
  · refine Prov.linked_snoc hh.linked ?_
    show s.ledgerIds.getLast?.toList = _
    rw [hids, List.getLast?_map]
  · show s.ledgerIds ++ _ = _
    rw [List.map_append, hids]
    rfl
  · show Prov.chainMix s.chainHead _ = _
    rw [hhead]
    exact (Chain.head_snoc _ _).symm

theorem xpRecord_eq (s : MemSubstrate) (r : Exp.ExperienceRecord) :
    s.xpRecord r = (some (Exp.recordId r), { s with
      xpHead := Prov.chainMix s.xpHead (Exp.recordId r)
      xpRing := (s.xpRing.push (Exp.row r)).2
      xpIds := s.xpIds ++ [Exp.recordId r] }) := by
  rw [xpRecord, Exp.canon, overwrite_full (Exp.length_canonBytes r)]
  dsimp only
  rw [if_neg (by decide)]
  rfl

theorem kept_xpRecord {s : MemSubstrate} (hk : Kept s) (r : Exp.ExperienceRecord) :
    Kept (s.xpRecord r).2 := by
  obtain ⟨h, hh⟩ := hk
  have hids : s.xpIds = h.observations.map Exp.recordId := hh.xpIds
  have hhead : s.xpHead = Prov.headOf s.xpIds := hh.xpHead
  rw [xpRecord_eq]
  refine ⟨{ h with observations := h.observations ++ [r] }, ?_⟩
  refine { hh with xpIds := ?_, xpHead := ?_, xpRing := ?_ }
  · show s.xpIds ++ _ = _
    rw [List.map_append, hids]
    rfl
  · show Prov.chainMix s.xpHead _ = _
    rw [hhead]
    exact (Chain.head_snoc _ _).symm
  · show (s.xpRing.push (Exp.row r)).2.Window _
    rw [List.map_append]
    exact hh.xpRing.push (Exp.row r)

theorem satU_succ (w n : Nat) : satU w (satU w n + 1) = satU w (n + 1) := by
  simp only [satU]
  omega

/-- The example `corpusEmit` curates. -/
def curatedAt (s : MemSubstrate) (kind stream verdict : UInt8) (tok aux : BitVec 64)
    (outcome : Corpus.OutcomeLabel) : Corpus.CorpusRecord :=
  { schemaVersion := Corpus.CORPUS_SCHEMA_V1, exampleKind := kind, sourceStream := stream
    curationVerdict := verdict, contentTok := tok, auxTok := aux, tCreated := s.clock
    sourceHead := s.chainHead, outcome := outcome, curationScoreQ := 0 }

theorem logs_corpusEmit (s : MemSubstrate) (kind stream verdict : UInt8) (tok aux : BitVec 64)
    (outcome : Corpus.OutcomeLabel) {r : Corpus.CorpusRecord}
    (hr : curatedAt s kind stream verdict tok aux outcome = r) :
    logs (s.corpusEmit kind stream verdict tok aux outcome) =
      { logs s with
        corpusHead := Prov.chainMix s.corpusHead (Corpus.recordId r)
        corpusIds := s.corpusIds ++ [Corpus.recordId r]
        corpusRecords := s.corpusRecords ++ [Corpus.row r]
        corpusAccepted := if Corpus.isAccepted r then satU 64 (s.corpusAccepted + 1)
          else s.corpusAccepted
        corpusRejected := if Corpus.isAccepted r then s.corpusRejected
          else satU 64 (s.corpusRejected + 1) } := by
  have hverdict : Corpus.isAccepted r = true ↔ verdict = Corpus.CurationVerdict.ACCEPTED := by
    rw [← hr]
    exact beq_iff_eq
  have hrecord : (⟨Corpus.CORPUS_SCHEMA_V1, kind, stream, verdict, tok, aux, s.clock, s.chainHead,
    outcome, 0⟩ : Corpus.CorpusRecord) = r := hr
  rw [corpusEmit, hrecord, Corpus.corpusAppend_eq]
  dsimp only
  split
  · next hacc => rw [if_pos (hverdict.mpr hacc), if_pos (hverdict.mpr hacc)]; rfl
  · next hrej => rw [if_neg (hrej ∘ hverdict.mp), if_neg (hrej ∘ hverdict.mp)]; rfl

theorem kept_corpusEmit {s : MemSubstrate} (hk : Kept s) (kind stream verdict : UInt8)
    (tok aux : BitVec 64) (outcome : Corpus.OutcomeLabel) :
    Kept (s.corpusEmit kind stream verdict tok aux outcome) := by
  obtain ⟨h, hh⟩ := hk
  have hids : s.corpusIds = h.curated.map Corpus.recordId := hh.corpusIds
  have hhead : s.corpusHead = Prov.headOf s.corpusIds := hh.corpusHead
  have hrecords : s.corpusRecords = h.curated.map Corpus.row := hh.corpusRecords
  have haccepted : s.corpusAccepted = satU 64 (h.curated.countP Corpus.isAccepted) := hh.accepted
  have hrejected : s.corpusRejected = satU 64 (h.curated.countP fun r => !Corpus.isAccepted r) :=
    hh.rejected
  generalize hr : curatedAt s kind stream verdict tok aux outcome = r
  refine ⟨{ h with curated := h.curated ++ [r] }, ?_⟩
  rw [logs_corpusEmit s kind stream verdict tok aux outcome hr]
  refine { hh with corpusIds := ?_, corpusHead := ?_, corpusRecords := ?_, accepted := ?_, rejected := ?_ }
  · show s.corpusIds ++ _ = _
    rw [List.map_append, hids]
    rfl
  · show Prov.chainMix s.corpusHead _ = _
    rw [hhead]
    exact (Chain.head_snoc _ _).symm
  · show s.corpusRecords ++ _ = _
    rw [List.map_append, hrecords]
    rfl
  · show (if Corpus.isAccepted r then _ else _) = satU 64 (List.countP _ (h.curated ++ [r]))
    rw [List.countP_append, List.countP_singleton, haccepted]
    cases Corpus.isAccepted r with
    | true => exact satU_succ 64 _
    | false => rfl
  · show (if Corpus.isAccepted r then _ else _) = satU 64 (List.countP _ (h.curated ++ [r]))
    rw [List.countP_append, List.countP_singleton, hrejected]
    cases Corpus.isAccepted r with
    | true => rfl
    | false => exact satU_succ 64 _

/-! ## Every operation -/

theorem logs_tick (s : MemSubstrate) : logs s.tick = logs s := rfl

theorem logs_settle (s : MemSubstrate) : logs s.settle = logs s := rfl

theorem logs_pushRecord (s : MemSubstrate) (token value : BitVec 64) (importance : Nat)
    (provenance : Provenance) (links : List (UInt8 × BitVec 64)) :
    logs (s.pushRecord token value importance provenance links).2 = logs s := by
  rw [pushRecord]
  split <;> rfl

theorem logs_delete (s : MemSubstrate) (key : BitVec 64) : logs (s.delete key).2 = logs s := by
  rw [delete]
  dsimp only
  split <;> rfl

theorem kept_write {s : MemSubstrate} (hk : Kept s) (op key value packed : BitVec 64) :
    Kept (s.write op key value packed).2 := by
  have hstore : Kept (if op = 0 ∨ op = 1 then s.add key value packed
      else if op = 2 then s.delete key else (some 0, s)).2 := by
    split
    · exact hk.of_logs (logs_pushRecord _ _ _ _ _ _)
    · split
      · exact hk.of_logs (logs_delete s key)
      · exact hk
  rw [write]
  dsimp only
  split
  · exact hstore
  · split
    · exact kept_ledgerAppend hstore _ _ _ _
    · exact hstore

theorem kept_readTouch {s : MemSubstrate} (hk : Kept s) (id : BitVec 64) : Kept (s.readTouch id).2 := by
  rw [readTouch]
  split
  · exact hk
  · exact kept_xpRecord hk _

theorem kept_serve {s : MemSubstrate} (hk : Kept s) (query : BitVec 64) (widx : Nat) :
    Kept (s.serve query widx).2 := by
  rw [serve]
  dsimp only
  refine Kept.of_logs (kept_xpRecord ?_ _) (logs_tick _)
  exact hk.of_logs rfl

theorem kept_retrieve {s : MemSubstrate} (hk : Kept s) (query : BitVec 64) :
    Kept (s.retrieve query).2 := by
  rw [retrieve]
  split
  · exact hk
  · dsimp only
    split
    · exact hk
    · exact kept_serve hk query _

theorem kept_tbRecall {s : MemSubstrate} (hk : Kept s) (query cursor k weights : BitVec 64) :
    Kept (s.tbRecall query cursor k weights).2 := by
  refine kept_retrieve ?_ query
  split
  · exact hk.of_logs rfl
  · exact hk

theorem kept_mergeCluster {s : MemSubstrate} (hk : Kept s) (c : Nat × List Nat) :
    Kept (mergeCluster s c) := by
  have hmerge : ∀ t loser, logs (mergeLoser c.1 t loser) = logs t := fun _ _ => rfl
  have hlosers : logs (c.2.foldl (mergeLoser c.1) s) = logs s := Update.foldl_keeps hmerge c.2 s
  refine kept_corpusEmit ?_ _ _ _ _ _ _
  exact hk.of_logs hlosers

theorem kept_distill {s : MemSubstrate} (hk : Kept s) : Kept s.distill.2 := by
  have hplan : Kept (s.distillPlan.foldl mergeCluster s) :=
    List.foldlRecOn (motive := Kept) _ _ hk fun _ ht c _ => kept_mergeCluster ht c
  rw [distill]
  dsimp only
  split
  · exact hplan.of_logs rfl
  · exact hplan

theorem kept_reflectInner {s : MemSubstrate} (hk : Kept s) (modelToken : BitVec 64) :
    Kept (s.reflectInner modelToken).2 := by
  rw [reflectInner]
  dsimp only
  split
  · exact hk
  · have hpush : ∀ token links, Kept (s.pushRecord token token REFLECT_IMP .insight links).2 :=
      fun token links => hk.of_logs (logs_pushRecord s token token REFLECT_IMP .insight links)
    split
    · next hp => exact (congrArg Prod.snd hp) ▸ hpush _ _
    · next hp =>
        have hpushed := (congrArg Prod.snd hp) ▸ hpush _ _
        refine kept_corpusEmit ?_ _ _ _ _ _ _
        exact hpushed.of_logs rfl

theorem kept_observe {s : MemSubstrate} (hk : Kept s) :
    ∀ obs : Option Exp.ExperienceRecord, Kept (s.observe obs)
  | none => hk
  | some r => kept_xpRecord hk r

theorem kept_sweepOne {s : MemSubstrate} (hk : Kept s) (idx : Nat) : Kept (s.sweepOne idx).2 := by
  rw [sweepOne]
  dsimp only
  split
  · refine kept_ledgerAppend ?_ _ _ _ _
    exact (kept_observe hk _).of_logs rfl
  · exact kept_observe hk _

theorem kept_sweepLoop (len budget : Nat) : ∀ (idx n : Nat) {s : MemSubstrate}, Kept s →
    Kept (sweepLoop len budget idx n s).2 := by
  induction budget with
  | zero => intro idx n s hk; exact hk
  | succ budget ih => intro idx n s hk; exact ih _ _ (kept_sweepOne hk idx)

theorem kept_forgetSweep {s : MemSubstrate} (hk : Kept s) : Kept s.forgetSweep.2 := by
  rw [forgetSweep]
  dsimp only
  split
  · exact hk
  · exact Kept.of_logs (kept_sweepLoop _ _ _ _ hk) rfl

theorem kept_consolidate {s : MemSubstrate} (hk : Kept s) (op a b c : BitVec 64) :
    Kept (s.consolidate op a b c).2 := by
  rw [consolidate]
  split
  · exact hk.of_logs rfl
  · exact hk.of_logs rfl
  · exact hk.of_logs rfl
  · exact Kept.of_logs (kept_forgetSweep (kept_reflectInner (kept_distill hk) 0)) (logs_settle _)
  · exact kept_reflectInner hk a
  · exact kept_forgetSweep hk
  · exact hk
  · exact hk
  · split <;> exact hk
  · exact hk

theorem kept_skillAddClass {s : MemSubstrate} (hk : Kept s) (body desc packed : BitVec 64)
    (prov : UInt8) : Kept (s.skillAddClass body desc packed prov).2 := by
  rw [skillAddClass]
  split
  · exact hk
  · refine kept_ledgerAppend ?_ _ _ _ _
    exact hk.of_logs rfl

theorem kept_writeProc {s : MemSubstrate} (hk : Kept s) (op a b c : BitVec 64) :
    Kept (s.writeProc op a b c).2 := by
  rw [writeProc]
  split
  · exact kept_skillAddClass hk a b c 0
  · rw [skillBumpUtil]
    split
    · exact hk
    · exact hk.of_logs rfl
  · exact hk
  · rw [skillLink]
    split
    · exact hk
    · exact hk.of_logs rfl
  · exact hk
  · exact kept_skillAddClass hk a b c SKILL_PROV_EMIT_EXTERNAL
  · exact hk

theorem logs_skillAdmit (s : MemSubstrate) (id : BitVec 64) (score : BitVec 32) :
    logs (s.skillAdmit id score).2 = logs s := by
  rw [skillAdmit]
  split
  · rfl
  · dsimp only
    split <;> rfl

theorem kept_step {s : MemSubstrate} (hk : Kept s) (op : Op) : Kept (step s op) := by
  cases op with
  | write op key value packed => exact kept_write hk op key value packed
  | readTouch id => exact kept_readTouch hk id
  | tbRecall query cursor k weights => exact kept_tbRecall hk query cursor k weights
  | consolidate op a b c => exact kept_consolidate hk op a b c
  | writeProc op a b c => exact kept_writeProc hk op a b c
  | seedHeldout target base n =>
      exact hk.of_logs (Update.foldl_keeps (fun t k => logs_pushRecord t _ _ 5 .episodic []) _ s)
  | skillAdmit id score => exact hk.of_logs (logs_skillAdmit s id score)
  | corpusEmitOperatorTurn tok aux verdict => exact kept_corpusEmit hk _ _ verdict tok aux _
  | corpusEmitLabeledOutcome decisionId outcome => exact kept_corpusEmit hk _ _ _ decisionId 0 outcome

/-! ## What a chain proves -/

/-- The head is the fold over the ids, so the ids are a proof of inclusion, and the
only one of their length the hash does not confuse with them. -/
structure Chained (ids : List Bytes32) (hd : Bytes32) : Prop where
  folds : hd = ids.foldl Prov.chainMix Prov.genesis
  accepts : ∀ leaf siblings, ids = leaf :: siblings → Prov.verifyInclusion leaf siblings hd = true
  rejects : ∀ leaf siblings, (leaf :: siblings).length = ids.length → leaf :: siblings ≠ ids →
    Prov.Separates (leaf :: siblings) ids → Prov.verifyInclusion leaf siblings hd = false

theorem chained_of_head {ids : List Bytes32} {hd : Bytes32} (h : hd = Prov.headOf ids) :
    Chained ids hd where
  folds := h
  accepts leaf siblings hids := by
    rw [Prov.verifyInclusion_iff, h, hids]
  rejects leaf siblings hlen hne hsep := by
    rw [Bool.eq_false_iff, ne_eq, Prov.verifyInclusion_iff, h]
    intro hhead
    exact hne (Chain.eq_of_head_eq hlen hsep.collisionFree hhead)

/-- In every reachable state each log's head is the fold over its ids and is what
`verify_inclusion` checks them against; every provenance entry is parented on the
one before; the corpus ids are the digests of the retained rows, and their verdicts
are counted (the counters saturate past any length a `usize` holds); and the ring
holds the canonical bytes of the last observations the experience ids name. -/
theorem logs_chained_along_runs (ops : List Op) :
    Chained (exec step new ops).ledgerIds (exec step new ops).chainHead ∧
    Chained (exec step new ops).xpIds (exec step new ops).xpHead ∧
    Chained (exec step new ops).corpusIds (exec step new ops).corpusHead ∧
    (∃ entries, (exec step new ops).ledgerIds = entries.map Prov.entryId ∧ Prov.Linked entries) ∧
    (exec step new ops).corpusIds = (exec step new ops).corpusRecords.map (fun row => Prov.provHash row.val) ∧
    ((exec step new ops).corpusIds.length < 2 ^ 64 →
      (exec step new ops).corpusAccepted + (exec step new ops).corpusRejected =
        (exec step new ops).corpusIds.length) ∧
    ∃ observations : List Exp.ExperienceRecord,
      (exec step new ops).xpIds = observations.map (fun r => Prov.provHash (Exp.canonBytes r)) ∧
      (exec step new ops).xpRing.len = min (exec step new ops).xpIds.length XP_CAP ∧
      ∀ i, ((exec step new ops).xpRing.get i).map Subtype.val =
        ((observations.drop (observations.length - XP_CAP)).map Exp.canonBytes)[i]? := by
  obtain ⟨h, hh⟩ : Kept (exec step new ops) :=
    exec_inv (P := Kept) (fun _ op hk => kept_step hk op) ops kept_new
  generalize exec step new ops = s at hh
  refine ⟨?_, ?_, ?_, ⟨h.entries, hh.ledgerIds, hh.linked⟩, ?_, ?_, h.observations, hh.xpIds, ?_, ?_⟩
  · exact chained_of_head hh.chainHead
  · exact chained_of_head hh.xpHead
  · exact chained_of_head hh.corpusHead
  · rw [show s.corpusIds = _ from hh.corpusIds, show s.corpusRecords = _ from hh.corpusRecords,
      List.map_map]
    rfl
  · intro hlt
    have hids : s.corpusIds = h.curated.map Corpus.recordId := hh.corpusIds
    have hsum : h.curated.length = h.curated.countP Corpus.isAccepted +
        h.curated.countP fun r => !Corpus.isAccepted r := by
      rw [List.length_eq_countP_add_countP Corpus.isAccepted]
      simp only [Bool.not_eq_true, Bool.decide_eq_false]
    rw [hids, List.length_map] at hlt ⊢
    rw [show s.corpusAccepted = _ from hh.accepted, show s.corpusRejected = _ from hh.rejected,
      satU_of_lt (by omega), satU_of_lt (by omega)]
    omega
  · have hlen := hh.xpRing.len
    rw [List.length_map] at hlen
    rw [show s.xpIds = _ from hh.xpIds, List.length_map]
    exact hlen
  · intro i
    have hget := hh.xpRing.get i
    rw [show s.xpRing.get i = _ from hget, List.length_map, List.getElem?_map, List.getElem?_drop,
      List.getElem?_map, List.getElem?_drop, Option.map_map]
    rfl

end Yuva.Mem
