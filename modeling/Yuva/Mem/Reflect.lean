/-
# `Yuva.Mem.Reflect` — the two traversals of a reflection agree

The source folds the recent records twice, in a read-only digest and in the path that writes the
insight.  Both are the same fold over `reflected`, the newest records that are live, hot and no
insight, at most a window of them.  So the token of the insight is the digest, whether the caller
leaves it to the memory or hands the digest back, and what it cites is what was folded.

Ids are positions in every reachable memory, so citing by id strengthens the cited records and
no other.
-/
import Mathlib.Data.List.Nodup
import Yuva.Mem.Records

namespace Yuva.Mem

open Yuva.Machine Yuva.Run MemSubstrate

namespace MemSubstrate

/-- The records a reflection folds, newest first. -/
def reflected (s : MemSubstrate) : List MemRecord :=
  (s.t3.records.reverse.filter MemRecord.reflectable).take REFLECT_WINDOW

end MemSubstrate

/-! ## The traversals -/

theorem take_succ_cons_of_lt {α : Type*} {n m : Nat} (h : n < m) (a : α) (l : List α) :
    (a :: l).take (m - n) = a :: l.take (m - (n + 1)) := by
  obtain ⟨k, rfl⟩ := Nat.exists_eq_add_of_lt h
  rw [show n + k + 1 - n = k + 1 by omega, show n + k + 1 - (n + 1) = k by omega, List.take_succ_cons]

theorem digestLoop_eq : ∀ (rs : List MemRecord) (n : Nat) (digest : BitVec 64), n < REFLECT_WINDOW →
    digestLoop rs n digest =
      ((rs.filter MemRecord.reflectable).take (REFLECT_WINDOW - n)).foldl digestStep digest
  | [], _, _, _ => by rw [List.filter_nil, List.take_nil]; rfl
  | r :: rs, n, digest, hn => by
    rw [digestLoop]
    split_ifs with hr hfull
    · have hlast : REFLECT_WINDOW - (n + 1) = 0 := by omega
      rw [List.filter_cons_of_pos hr, take_succ_cons_of_lt hn, hlast]
      rfl
    · rw [List.filter_cons_of_pos hr, take_succ_cons_of_lt hn, List.foldl_cons]
      exact digestLoop_eq rs (n + 1) _ (Nat.lt_of_not_le hfull)
    · rw [List.filter_cons_of_neg hr]
      exact digestLoop_eq rs n digest hn

/-- The writing traversal folds the same digest, and stops where the other does. -/
theorem citeLoop_digest : ∀ (rs : List MemRecord) (cites : List (BitVec 64)) (digest : BitVec 64),
    (citeLoop rs cites digest).2 = digestLoop rs cites.length digest
  | [], _, _ => rfl
  | r :: rs, cites, digest => by
    have hlen : (cites ++ [r.id]).length = cites.length + 1 := List.length_append
    rw [citeLoop, digestLoop]
    dsimp only
    rw [hlen]
    split_ifs with hr hfull
    · rfl
    · rw [citeLoop_digest rs, hlen]
    · exact citeLoop_digest rs cites digest

theorem citeLoop_cites : ∀ (rs : List MemRecord) (cites : List (BitVec 64)) (digest : BitVec 64),
    cites.length < REFLECT_WINDOW →
    (citeLoop rs cites digest).1 = cites ++
      ((rs.filter MemRecord.reflectable).take (REFLECT_WINDOW - cites.length)).map MemRecord.id
  | [], cites, _, _ => by rw [List.filter_nil, List.take_nil, List.map_nil, List.append_nil]; rfl
  | r :: rs, cites, digest, hcites => by
    have hlen : (cites ++ [r.id]).length = cites.length + 1 := List.length_append
    rw [citeLoop]
    dsimp only
    rw [hlen]
    split_ifs with hr hfull
    · have hlast : REFLECT_WINDOW - (cites.length + 1) = 0 := by omega
      rw [List.filter_cons_of_pos hr, take_succ_cons_of_lt hcites, hlast]
      rfl
    · have hlt : (cites ++ [r.id]).length < REFLECT_WINDOW := hlen ▸ Nat.lt_of_not_le hfull
      rw [List.filter_cons_of_pos hr, take_succ_cons_of_lt hcites, List.map_cons,
        citeLoop_cites rs _ _ hlt, hlen, List.append_assoc, List.singleton_append]
    · rw [List.filter_cons_of_neg hr]
      exact citeLoop_cites rs cites digest hcites

theorem reflectDigest_eq (s : MemSubstrate) : s.reflectDigest = s.reflected.foldl digestStep REFLECT_SEED :=
  digestLoop_eq _ 0 _ (by decide)

theorem citeLoop_eq (s : MemSubstrate) :
    citeLoop s.t3.records.reverse [] REFLECT_SEED = (s.reflected.map MemRecord.id, s.reflectDigest) :=
  Prod.ext (citeLoop_cites _ [] _ (by decide)) (citeLoop_digest _ [] _)

/-! ## The insight -/

/-- Ids are positions, so no two records share one. -/
theorem Lockstep.nodup_ids {s : MemSubstrate} (hs : Lockstep s) : (s.t3.records.map MemRecord.id).Nodup := by
  refine List.Nodup.of_map BitVec.toNat ?_
  have hrange : (s.t3.records.map MemRecord.id).map BitVec.toNat = List.range s.t3.records.length := by
    refine List.ext_getElem (by simp) fun i hi hi' => ?_
    rw [List.length_range] at hi'
    rw [List.getElem_map, List.getElem_map, List.getElem_range]
    exact hs.recordId (List.getElem?_eq_getElem hi')
  rw [hrange]
  exact List.nodup_range

theorem reflected_sublist (s : MemSubstrate) : s.reflected.Sublist s.t3.records.reverse :=
  (List.take_sublist _ _).trans List.filter_sublist

theorem nodup_cites {s : MemSubstrate} (hids : (s.t3.records.map MemRecord.id).Nodup) :
    (s.reflected.map MemRecord.id).Nodup := by
  refine List.Nodup.sublist ((reflected_sublist s).map _) ?_
  rw [List.map_reverse]
  exact List.nodup_reverse.2 hids

/-- What a reflection makes of a record: a cited one weighs one more, up to ten. -/
def cited (s : MemSubstrate) (r : MemRecord) : MemRecord :=
  if r ∈ s.reflected then { r with importance := min (r.importance + 1) 10 } else r

/-- The record written by the reflection: its token and its links to what was folded. -/
structure Insight (s : MemSubstrate) (token : BitVec 64) (r : MemRecord) : Prop where
  token : r.token = token
  links : r.links = s.reflected.map fun c => (LINK_CITES, c.id)
  provenance : r.provenance = .insight

theorem strengthen_eq {r : MemRecord} (h : r.graded) :
    r.strengthen = { r with importance := min (r.importance + 1) 10 } := by
  obtain ⟨-, hhi⟩ := h
  rw [MemRecord.strengthen, satU]
  congr 1
  omega

/-- Citing by id strengthens the cited records. -/
theorem strengthened_eq {s : MemSubstrate} {r : MemRecord} (hgraded : All MemRecord.graded s)
    (hids : ((s.t3.records ++ [r]).map MemRecord.id).Nodup) :
    (s.reflected.map MemRecord.id).foldl strengthenCited (s.t3.records ++ [r]) =
      s.t3.records.map (cited s) ++ [r] := by
  have hkeep : ∀ r : MemRecord, r.strengthen.id = r.id := fun _ => rfl
  have hfold := Update.foldl_replaceF_key hkeep
    (nodup_cites (List.Nodup.of_append_left (by rwa [List.map_append] at hids))) hids
  have hmem : ∀ c ∈ s.reflected, c ∈ s.t3.records := fun c hc =>
    List.mem_reverse.1 ((reflected_sublist s).subset hc)
  have hinj := List.inj_on_of_nodup_map hids
  refine hfold.trans ?_
  rw [List.map_append, List.map_singleton]
  congr 1
  · refine List.map_congr_left fun c hc => ?_
    have hiff : c.id ∈ s.reflected.map MemRecord.id ↔ c ∈ s.reflected := by
      refine ⟨fun h => ?_, List.mem_map_of_mem⟩
      obtain ⟨c', hc', hid⟩ := List.mem_map.1 h
      exact hinj (List.mem_append_left _ (hmem c' hc')) (List.mem_append_left _ hc) hid ▸ hc'
    rw [cited]
    simp only [hiff, strengthen_eq (hgraded c hc)]
  · have hfresh : r.id ∉ s.reflected.map MemRecord.id := by
      rintro h
      obtain ⟨c, hc, hid⟩ := List.mem_map.1 h
      rw [List.map_append, List.nodup_append'] at hids
      exact hids.2.2 (hid ▸ List.mem_map_of_mem (hmem c hc)) List.mem_cons_self
    rw [if_neg hfresh]

/-- A reflection with something to fold and quota left writes the digest, as does one that is
handed the digest. -/
theorem reflectInner_spec {s : MemSubstrate} {j : Journal} (hj : Mirrors s j) (hgraded : All MemRecord.graded s)
    (hquota : HasQuota s) (hwindow : s.reflected ≠ []) {token : BitVec 64}
    (htoken : token = 0 ∨ token = s.reflectDigest) :
    ∃ r, Insight s s.reflectDigest r ∧ (s.reflectInner token).1 = some r.id ∧
      (s.reflectInner token).2.t3.records = s.t3.records.map (cited s) ++ [r] := by
  have hdigest : (if token ≠ 0 then token else s.reflectDigest) = s.reflectDigest := by
    rcases htoken with rfl | rfl
    · exact if_neg fun hne => hne rfl
    · exact ite_id _
  have hcites : ¬ (s.reflected.map MemRecord.id).isEmpty = true := by
    rw [List.isEmpty_iff, List.map_eq_nil_iff]
    exact hwindow
  have hlinks : (s.reflected.map MemRecord.id).map (fun id => (LINK_CITES, id)) =
      s.reflected.map fun c => (LINK_CITES, c.id) := List.map_map
  have hover : ¬ satU 64 (s.quota.tokensWritten + 1) > TOKEN_QUOTA := Nat.not_lt.2 hquota
  have hq : j.charged < TOKEN_QUOTA := not_not.1 fun h => hover (hj.charge_iff.2.2 h)
  have hids := (appendRecord_mirrors hj hq s.reflectDigest s.reflectDigest REFLECT_IMP .insight
    (s.reflected.map fun c => (LINK_CITES, c.id))).lockstep.nodup_ids
  rw [records_appendRecord] at hids
  refine ⟨MemRecord.fresh s.t2.nextId s.reflectDigest REFLECT_IMP s.clock .insight
    (s.reflected.map fun c => (LINK_CITES, c.id)), ⟨rfl, rfl, rfl⟩, ?_, ?_⟩
  · rw [reflectInner, citeLoop_eq]
    dsimp only
    rw [if_neg hcites, hdigest, hlinks, pushRecord, if_neg hover]
    rfl
  · rw [reflectInner, citeLoop_eq]
    dsimp only
    rw [if_neg hcites, hdigest, hlinks, pushRecord, if_neg hover, ← strengthened_eq hgraded hids]
    exact congrArg (fun c => c.1.records) (core_corpusEmit _ _ _ _ _ _ _)

/-- In every reachable memory with quota left and something to fold, op 6 answers the fold and
changes nothing, and op 4 writes an insight with that token, left to the memory or handed back. -/
theorem reflection_paths_agree (ops : List Op) (hquota : HasQuota (reached ops))
    (hwindow : (reached ops).reflected ≠ []) :
    ∃ digest, digest = (reached ops).reflected.foldl digestStep REFLECT_SEED ∧
      (∀ a b c, (reached ops).consolidate 6 a b c = (digest, reached ops)) ∧
      ∀ token, token = 0 ∨ token = digest → ∀ b c, ∃ r, Insight (reached ops) digest r ∧
        ((reached ops).consolidate 4 token b c).1 = r.id ∧
        ((reached ops).consolidate 4 token b c).2.t3.records =
          (reached ops).t3.records.map (cited (reached ops)) ++ [r] := by
  obtain ⟨j, -, hj, -, -⟩ := reached_mirrors ops []
  refine ⟨(reached ops).reflectDigest, reflectDigest_eq _, fun _ _ _ => rfl, fun token htoken b c => ?_⟩
  obtain ⟨r, hinsight, hid, hrecords⟩ := reflectInner_spec hj (graded_reached ops) hquota hwindow htoken
  refine ⟨r, hinsight, ?_, hrecords⟩
  show ((reached ops).reflectInner token).1.getD 0 = r.id
  rw [hid, Option.getD_some]

/-- Three records are written and the second is tombstoned. -/
def threeWritten : List Op := [.write 0 7 70 3, .write 0 8 80 3, .write 0 9 90 3, .consolidate 0 1 0 0]

/-- The other two are folded, newest first. -/
theorem written_paths_agree :
    (reached threeWritten).reflected.map MemRecord.id = [2, 0] ∧
    ∃ digest, digest = (reached threeWritten).reflected.foldl digestStep REFLECT_SEED ∧
      (∀ a b c, (reached threeWritten).consolidate 6 a b c = (digest, reached threeWritten)) ∧
      ∀ token, token = 0 ∨ token = digest → ∀ b c, ∃ r, Insight (reached threeWritten) digest r ∧
        ((reached threeWritten).consolidate 4 token b c).1 = r.id ∧
        ((reached threeWritten).consolidate 4 token b c).2.t3.records =
          (reached threeWritten).t3.records.map (cited (reached threeWritten)) ++ [r] := by
  have hfolded : (reached threeWritten).reflected.map MemRecord.id = [2, 0] := by decide
  have hquota : HasQuota (reached threeWritten) := by
    rw [HasQuota]
    decide
  refine ⟨hfolded, reflection_paths_agree threeWritten hquota fun hnil => ?_⟩
  rw [hnil, List.map_nil] at hfolded
  exact absurd hfolded.symm (List.cons_ne_nil _ _)

end Yuva.Mem
