/-
# `Yuva.Mem.Recall` — recall ranks the candidates and moves on

What `recall` returns is described over the records alone: a position is `EligibleAt` when its
record carries the query, is live and hot and was not just retrieved, and the `Winner` is the
lowest eligible position with the greatest score.  The index adds and misses nothing
(`mem_candidates`), the loop finds the winner (`retrieve_winner`).

The ring of recent retrievals is circular with four places, so along a sequence it holds the
last four results (`Recent`) and each result differs from the four before it.
-/
import Yuva.Mem.Failures
import Yuva.Mem.Ranking

namespace Yuva.Mem

open Yuva.Machine Yuva.Run MemSubstrate

namespace MemSubstrate

variable (s : MemSubstrate) (query : BitVec 64)

/-- The record at `i` carries the query, is live and hot and not recently retrieved. -/
def EligibleAt (i : Nat) : Prop :=
  ∃ r, s.t3.records[i]? = some r ∧ r.token = query ∧ r.tInvalid = 0 ∧ r.tier = .hot ∧
    s.finsts.contains r.id = false

/-- The relevance of the query: how rare its token is among the records. -/
def relevance : Int := bm25Idf (s.t3.records.countP fun r => r.token == query) (max s.t3.records.length 1)

noncomputable def total (i : Nat) : Int := s.score (s.relevance query) {j | s.EligibleAt query j} i

/-- Eligible, with the greatest score, and the first of those. -/
def Winner (i : Nat) : Prop :=
  s.EligibleAt query i ∧
    ∀ j, s.EligibleAt query j → s.total query j ≤ s.total query i ∧ (s.total query j = s.total query i → i ≤ j)

end MemSubstrate

/-! ## One recall -/

section Candidates

variable {s : MemSubstrate} (hs : Lockstep s) {query : BitVec 64}

theorem Lockstep.fresh (hs : Lockstep s) (cursor : BitVec 64) : Lockstep (s.fresh cursor) := by
  rw [MemSubstrate.fresh]
  split
  · exact ⟨hs.lengths, hs.episodeId, hs.recordId, hs.sameToken, hs.ascending, hs.carries, hs.numDocs, hs.quota,
      hs.reads⟩
  · exact hs

include hs

/-- The postings of a token are the positions that carry it. -/
theorem postings_eq {ps : List Nat} (hps : s.t3.lexical[query]? = some ps) :
    ps = s.t3.records.findIdxs fun r => r.token == query := by
  refine List.Pairwise.eq_of_mem_iff (hs.ascending hps) List.pairwise_findIdxs fun i => ?_
  have hcarries := hs.carries query i
  rw [hps] at hcarries
  rw [List.mem_findIdxs_iff_exists_getElem_pos]
  constructor
  · intro hi
    obtain ⟨r, hr, htok⟩ := hcarries.1 ⟨ps, rfl, hi⟩
    obtain ⟨hlt, rfl⟩ := List.getElem?_eq_some_iff.1 hr
    exact ⟨hlt, beq_iff_eq.2 htok⟩
  · rintro ⟨hlt, htok⟩
    obtain ⟨ps', hps', hi⟩ := hcarries.2 ⟨_, List.getElem?_eq_getElem hlt, beq_iff_eq.1 htok⟩
    exact Option.some.inj hps' ▸ hi

theorem relevance_eq {ps : List Nat} (hps : s.t3.lexical[query]? = some ps) :
    bm25Idf ps.length (max s.t3.numDocs 1) = s.relevance query := by
  rw [relevance, hs.numDocs, postings_eq hs hps, List.length_findIdxs]

theorem mem_candidates {ps : List Nat} (hps : s.t3.lexical[query]? = some ps) (i : Nat) :
    i ∈ s.candidates ps ↔ s.EligibleAt query i := by
  have hcarries := hs.carries query i
  rw [hps] at hcarries
  rw [candidates, List.mem_filter]
  constructor
  · rintro ⟨hi, hactive⟩
    obtain ⟨r, hr, htok⟩ := hcarries.1 ⟨ps, rfl, hi⟩
    rw [List.getElem!_eq_getElem?_getD, hr, Option.getD_some] at hactive
    simp only [MemRecord.active, Bool.and_eq_true, beq_iff_eq, Bool.not_eq_true'] at hactive
    exact ⟨r, hr, htok, hactive.1.1, hactive.1.2, hactive.2⟩
  · rintro ⟨r, hr, htok, hlive, hhot, hnew⟩
    obtain ⟨ps', hps', hi⟩ := hcarries.2 ⟨r, hr, htok⟩
    refine ⟨Option.some.inj hps' ▸ hi, ?_⟩
    rw [List.getElem!_eq_getElem?_getD, hr, Option.getD_some]
    simp only [MemRecord.active, Bool.and_eq_true, beq_iff_eq, Bool.not_eq_true']
    exact ⟨⟨hlive, hhot⟩, hnew⟩

theorem not_eligible_of_unindexed (hps : s.t3.lexical[query]? = none) (i : Nat) : ¬ s.EligibleAt query i := by
  rintro ⟨r, hr, htok, -⟩
  obtain ⟨ps, hps', -⟩ := (hs.carries query i).2 ⟨r, hr, htok⟩
  rw [hps] at hps'
  exact nomatch hps'

/-- The best candidate is the winner. -/
theorem winner_best (hgraded : All MemRecord.graded s) (hcounted : All MemRecord.counted s) {ps : List Nat}
    (hps : s.t3.lexical[query]? = some ps) (hne : s.candidates ps ≠ []) :
    s.Winner query (s.best ps (s.candidates ps)) := by
  have hmem := mem_candidates hs hps
  have hsorted : (s.candidates ps).Pairwise (· < ·) := (hs.ascending hps).filter _
  have hin : ∀ i ∈ s.candidates ps, i < s.t3.records.length := fun i hi =>
    hs.posting_lt hps (List.mem_of_mem_filter hi)
  obtain ⟨m, hm, hbest, hmax⟩ := best_spec hgraded hcounted (E := {j | s.EligibleAt query j}) hmem hin hne
  rw [relevance_eq hs hps] at hmax
  rw [hbest]
  refine ⟨(hmem _).1 (List.getElem_mem hm), fun j hj => ?_⟩
  obtain ⟨k, hk, rfl⟩ := List.getElem_of_mem ((hmem j).2 hj)
  obtain ⟨hle, hfirst⟩ := hmax k hk
  refine ⟨hle, fun heq => ?_⟩
  rcases (hfirst heq).lt_or_eq with hlt | rfl
  · exact (List.pairwise_iff_getElem.1 hsorted m k hm hk hlt).le
  · exact le_rfl

/-- A recall returns the winner, or nothing where nothing is eligible. -/
theorem retrieve_winner (hgraded : All MemRecord.graded s) (hcounted : All MemRecord.counted s) :
    (∃ i r, s.t3.records[i]? = some r ∧ s.Winner query i ∧ (s.retrieve query).1 = some r.id) ∨
      (∀ i, ¬ s.EligibleAt query i) ∧ (s.retrieve query).1 = none := by
  rw [retrieve]
  cases hps : s.t3.lexical[query]? with
  | none => exact .inr ⟨not_eligible_of_unindexed hs hps, rfl⟩
  | some ps =>
    dsimp only
    split_ifs with hempty
    · refine .inr ⟨fun i hi => ?_, rfl⟩
      have hnil := List.isEmpty_iff.1 hempty
      have hmem := (mem_candidates hs hps i).2 hi
      rw [hnil] at hmem
      exact absurd hmem List.not_mem_nil
    · have hne : s.candidates ps ≠ [] := fun h => hempty (List.isEmpty_iff.2 h)
      have hwin := winner_best hs hgraded hcounted hps hne
      obtain ⟨r, hr, -⟩ := hwin.1
      refine .inl ⟨_, r, hr, hwin, ?_⟩
      rw [serve, List.getElem!_eq_getElem?_getD, hr]
      rfl

end Candidates

/-! ## The ring -/

namespace Finsts

/-- The ring holds the last four of `ids`, each at its place. -/
structure Recent (f : Finsts) (ids : List (BitVec 64)) : Prop where
  head : f.head % F_FINST = ids.length % F_FINST
  slot : ∀ (i : Nat) (id : BitVec 64), ids.length ≤ i + F_FINST → ids[i]? = some id →
    ∃ ts, f.ring[i % F_FINST]? = some (some (id, ts))

theorem recent_clear : Recent clear [] where
  head := rfl
  slot _ _ _ h := nomatch h

theorem Recent.push {f : Finsts} {ids : List (BitVec 64)} (h : f.Recent ids) (id ts : BitVec 64) :
    (f.push id ts).Recent (ids ++ [id]) where
  head := by
    have hhead := h.head
    simp only [Finsts.push, wrapU, F_FINST, List.length_append, List.length_singleton] at *
    omega
  slot i id' hi hget := by
    have hhead := h.head
    rw [List.length_append, List.length_singleton] at hi
    have hplace : f.head % F_FINST < F_FINST := Nat.mod_lt _ (by decide)
    rw [Finsts.push, Vector.getElem?_setIfInBounds]
    rcases Nat.lt_trichotomy i ids.length with hlt | rfl | hgt
    · have hother : f.head % F_FINST ≠ i % F_FINST := by
        simp only [F_FINST] at *
        omega
      rw [List.getElem?_append_left hlt] at hget
      rw [if_neg hother]
      exact h.slot i id' (by omega) hget
    · rw [List.getElem?_concat_length] at hget
      rw [if_pos hhead, if_pos (hhead ▸ hplace), Option.some.inj hget]
      exact ⟨ts, rfl⟩
    · rw [List.getElem?_eq_none (by rw [List.length_append, List.length_singleton]; omega)] at hget
      exact nomatch hget

theorem Recent.contains {f : Finsts} {ids : List (BitVec 64)} (h : f.Recent ids) {i : Nat} {id : BitVec 64}
    (hi : ids.length ≤ i + F_FINST) (hget : ids[i]? = some id) : f.contains id = true := by
  obtain ⟨ts, hslot⟩ := h.slot i id hi hget
  obtain ⟨hlt, hring⟩ := Vector.getElem?_eq_some_iff.1 hslot
  rw [Finsts.contains, Vector.any_eq_true]
  exact ⟨i % F_FINST, hlt, by rw [hring, Option.any_some, beq_self_eq_true]⟩

end Finsts

/-! ## A sequence of recalls -/

/-- The arguments of a recall. -/
structure RecallCall where
  query : BitVec 64
  cursor : BitVec 64
  k : BitVec 64
  weights : BitVec 64

namespace MemSubstrate

def recallOf (s : MemSubstrate) (c : RecallCall) : Option (BitVec 64) × MemSubstrate :=
  s.tbRecall c.query c.cursor c.k c.weights

/-- The ids a sequence of recalls returns, in order. -/
def recalled : MemSubstrate → List RecallCall → List (BitVec 64)
  | _, [] => []
  | s, c :: cs => (s.recallOf c).1.toList ++ recalled (s.recallOf c).2 cs

theorem finsts_serve (s : MemSubstrate) (query : BitVec 64) (widx : Nat) :
    (s.serve query widx).2.finsts = s.finsts.push s.t3.records[widx]!.id s.clock := by
  rw [serve]
  dsimp only
  rw [xpRecord_eq]
  rfl

/-- A recall returns an id the ring does not hold and puts it there, or does nothing. -/
theorem retrieve_finsts (s : MemSubstrate) (query : BitVec 64) :
    (∃ id, (s.retrieve query).1 = some id ∧ s.finsts.contains id = false ∧
      (s.retrieve query).2.finsts = s.finsts.push id s.clock) ∨
    s.retrieve query = (none, s) := by
  rw [retrieve]
  split
  · exact .inr rfl
  · next ps hps =>
    dsimp only
    split_ifs with hempty
    · exact .inr rfl
    · have hne : s.candidates ps ≠ [] := fun h => hempty (List.isEmpty_iff.2 h)
      have hbest : s.best ps (s.candidates ps) ∈ s.candidates ps := best_mem hne
      have hnew := (List.mem_filter.1 hbest).2
      simp only [Bool.and_eq_true, Bool.not_eq_true'] at hnew
      exact .inl ⟨_, rfl, hnew.2, finsts_serve s query _⟩

/-- Each of `ids` differs from the four before it. -/
def Spread (ids : List (BitVec 64)) : Prop :=
  ∀ (i j : Nat) (id : BitVec 64), i < j → j ≤ i + F_FINST → ids[i]? = some id → ids[j]? ≠ some id

theorem spread_concat {f : Finsts} {ids : List (BitVec 64)} {id : BitVec 64} (hids : Spread ids)
    (hrecent : f.Recent ids) (hnew : f.contains id = false) : Spread (ids ++ [id]) := by
  intro i j x hij hj hi hx
  have hjlt : j < (ids ++ [id]).length := (List.getElem?_eq_some_iff.1 hx).1
  rw [List.length_append, List.length_singleton] at hjlt
  rw [List.getElem?_append_left (by omega)] at hi
  rcases Nat.lt_or_ge j ids.length with hlt | hge
  · rw [List.getElem?_append_left hlt] at hx
    exact hids i j x hij hj hi hx
  · obtain rfl : j = ids.length := by omega
    rw [List.getElem?_concat_length] at hx
    have hcontains := hrecent.contains hj hi
    rw [← Option.some.inj hx, hnew] at hcontains
    exact nomatch hcontains

/-- One search keeps the results spread and the ring recent. -/
theorem retrieve_keeps {s : MemSubstrate} {ids : List (BitVec 64)} (hids : Spread ids)
    (hrecent : s.finsts.Recent ids) (query : BitVec 64) :
    Spread (ids ++ (s.retrieve query).1.toList) ∧
      (s.retrieve query).2.finsts.Recent (ids ++ (s.retrieve query).1.toList) := by
  rcases retrieve_finsts s query with ⟨id, hid, hnew, hring⟩ | hnone
  · rw [hid, hring]
    exact ⟨spread_concat hids hrecent hnew, hrecent.push id s.clock⟩
  · rw [hnone, Option.toList_none, List.append_nil]
    exact ⟨hids, hrecent⟩

theorem spread_recalled : ∀ (cs : List RecallCall) (s : MemSubstrate) (ids : List (BitVec 64)),
    (∀ c ∈ cs, c.cursor ≠ 0) → Spread ids → s.finsts.Recent ids → Spread (ids ++ s.recalled cs)
  | [], _, ids, _, hids, _ => by rwa [recalled, List.append_nil]
  | c :: cs, s, ids, hcursor, hids, hrecent => by
    obtain ⟨hc, hcs⟩ := List.forall_mem_cons.1 hcursor
    have hrecall : s.recallOf c = s.retrieve c.query := by rw [recallOf, tbRecall, if_neg hc]
    obtain ⟨hids', hrecent'⟩ := retrieve_keeps hids hrecent c.query
    rw [recalled, hrecall, ← List.append_assoc]
    exact spread_recalled cs _ _ hcs hids' hrecent'

/-- A zero cursor empties the ring; from there on every result differs from the last four. -/
theorem spread_sequence (s : MemSubstrate) {c : RecallCall} {cs : List RecallCall} (hc : c.cursor = 0)
    (hcs : ∀ c ∈ cs, c.cursor ≠ 0) : Spread (s.recalled (c :: cs)) := by
  have hrecall : s.recallOf c = { s with finsts := Finsts.clear }.retrieve c.query := by
    rw [recallOf, tbRecall, if_pos hc]
  have hnone : Spread [] := fun _ _ _ _ _ h => by cases h
  obtain ⟨hids, hrecent⟩ := retrieve_keeps (s := { s with finsts := Finsts.clear }) hnone Finsts.recent_clear c.query
  rw [recalled, hrecall]
  exact spread_recalled cs _ _ hcs hids hrecent

theorem nodup_window {ids : List (BitVec 64)} (h : Spread ids) (n : Nat) : ((ids.drop n).take 5).Nodup := by
  refine List.pairwise_iff_getElem.2 fun i j hi hj hij heq => ?_
  rw [List.length_take, List.length_drop] at hi hj
  rw [List.getElem_take, List.getElem_take, List.getElem_drop, List.getElem_drop] at heq
  refine h (n + i) (n + j) ids[n + i] (by omega) (by rw [F_FINST]; omega)
    (List.getElem?_eq_getElem (by omega)) ?_
  rw [heq]
  exact List.getElem?_eq_getElem (by omega)

end MemSubstrate

/-- In every reachable substrate a recall returns the winner of its query, or nothing exactly
where nothing is eligible; and in a sequence that starts afresh and goes on, any five results
in a row are distinct. -/
theorem recall_ranks_and_advances (ops : List Op) :
    (∀ query cursor k weights : BitVec 64,
      (∃ i r, ((reached ops).fresh cursor).t3.records[i]? = some r ∧
        ((reached ops).fresh cursor).Winner query i ∧
        ((reached ops).tbRecall query cursor k weights).1 = some r.id) ∨
      (∀ i, ¬ ((reached ops).fresh cursor).EligibleAt query i) ∧
        ((reached ops).tbRecall query cursor k weights).1 = none) ∧
    ∀ (c : RecallCall) (cs : List RecallCall), c.cursor = 0 → (∀ c ∈ cs, c.cursor ≠ 0) →
      ∀ n, (((reached ops).recalled (c :: cs)).drop n |>.take 5).Nodup := by
  refine ⟨fun query cursor k weights => ?_, fun c cs hc hcs n => nodup_window (spread_sequence _ hc hcs) n⟩
  obtain ⟨j, -, hj, -⟩ := reached_mirrors ops []
  have hrecords : ((reached ops).fresh cursor).t3 = (reached ops).t3 := by
    rw [MemSubstrate.fresh]
    split <;> rfl
  have hgraded : All MemRecord.graded ((reached ops).fresh cursor) :=
    (graded_reached ops).of_records (by rw [hrecords])
  have hcounted : All MemRecord.counted ((reached ops).fresh cursor) :=
    (counted_reached ops).of_records (by rw [hrecords])
  exact retrieve_winner (hj.lockstep.fresh cursor) hgraded hcounted

end Yuva.Mem
