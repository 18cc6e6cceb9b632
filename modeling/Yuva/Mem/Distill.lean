/-
# `Yuva.Mem.Distill` — distillation leaves one record a token

The plan is computed on the store as it was, and applied by position.  Over the records alone it
is this: the tokens with two or more live hot records, in order, a batch of them; of each the
`survivor`, first in importance, then newer, then smaller in id, and the rest its losers.  The
clusters of two tokens are disjoint, so the loops of the second phase come to one edit a position
(`records_distill`).

A loser is marked dead with the clock.  The mark means *live* when the clock is zero, and the
clock wraps: a call made then links the losers to the survivor and leaves them live.  Otherwise a
call takes a batch off the duplicated tokens (`duplicated_distill`), so that they are used up
after so many calls exactly when none of these is made at zero (`drained_iff`).
-/
import Mathlib.Algebra.Order.Floor.Div
import Mathlib.Data.Prod.Lex
import Yuva.Mem.Growth
import Yuva.Mem.Recall

namespace Yuva.Mem

open Yuva.Machine Yuva.Run Yuva.Select MemSubstrate

/-! ## The clusters -/

/-- Importance, then age, then id, as the order of survival. -/
def MemRecord.rank (r : MemRecord) : Nat ×ₗ Nat ×ₗ Natᵒᵈ :=
  toLex (r.importance, toLex (r.tCreated.toNat, OrderDual.toDual r.id.toNat))

namespace MemSubstrate

variable (s : MemSubstrate)

/-- Where the live hot records of a token are. -/
def liveHot (tok : BitVec 64) : List Nat := s.t3.records.findIdxs fun r => r.token == tok && r.active

/-- The tokens with two or more live hot records, in order. -/
def duplicated : List (BitVec 64) := s.t3.lexical.keys.filter fun tok => decide (2 ≤ (s.liveHot tok).length)

/-- The tokens one call distills. -/
def batch : List (BitVec 64) := s.duplicated.take DISTILL_BATCH

/-- Where the record of a token is that outranks its others. -/
def survivor (tok : BitVec 64) : Nat :=
  select (fun i j : Nat => better s.t3.records[i]! s.t3.records[j]! = true) (s.liveHot tok)[0]! (s.liveHot tok)

def losers (tok : BitVec 64) : List Nat := (s.liveHot tok).filter fun i => i != s.survivor tok

end MemSubstrate

theorem better_iff {r q : MemRecord} : better r q = true ↔ q.rank < r.rank := by
  rw [MemRecord.rank, MemRecord.rank, Prod.Lex.toLex_lt_toLex, Prod.Lex.toLex_lt_toLex, OrderDual.toDual_lt_toDual]
  simp only [better, Bool.or_eq_true, Bool.and_eq_true, decide_eq_true_eq, beq_iff_eq, gt_iff_lt, BitVec.lt_def,
    BitVec.toNat_eq]
  omega

theorem strictWeak_better (s : MemSubstrate) :
    StrictWeak fun i j : Nat => better s.t3.records[i]! s.t3.records[j]! = true := by
  have hkey := StrictWeak.of_key fun i : Nat => (s.t3.records[i]!).rank
  simpa only [better_iff] using hkey

section Clusters

variable {s : MemSubstrate}

theorem mem_liveHot {tok : BitVec 64} {i : Nat} :
    i ∈ s.liveHot tok ↔ ∃ r, s.t3.records[i]? = some r ∧ r.token = tok ∧ r.active = true := by
  rw [liveHot, List.mem_findIdxs_iff_exists_getElem_pos]
  simp only [Bool.and_eq_true, beq_iff_eq]
  constructor
  · rintro ⟨hlt, htok, hactive⟩
    exact ⟨_, List.getElem?_eq_getElem hlt, htok, hactive⟩
  · rintro ⟨r, hr, htok, hactive⟩
    obtain ⟨hlt, rfl⟩ := List.getElem?_eq_some_iff.1 hr
    exact ⟨hlt, htok, hactive⟩

theorem ascending_liveHot (s : MemSubstrate) (tok : BitVec 64) : (s.liveHot tok).Pairwise (· < ·) :=
  List.pairwise_findIdxs

theorem seed_mem {tok : BitVec 64} (h : s.liveHot tok ≠ []) : (s.liveHot tok)[0]! ∈ s.liveHot tok := by
  obtain ⟨i, rest, hlive⟩ := List.exists_cons_of_ne_nil h
  rw [hlive]
  exact List.mem_cons_self

theorem survivor_mem {tok : BitVec 64} (h : s.liveHot tok ≠ []) : s.survivor tok ∈ s.liveHot tok := by
  rcases List.mem_cons.1 (select_mem (strictWeak_better s) (s.liveHot tok)[0]! (s.liveHot tok)) with hseed | hmem
  · rw [survivor, hseed]
    exact seed_mem h
  · exact hmem

/-- Ids are unique, so the survivor outranks every other record of its token. -/
theorem survivor_outranks (hs : Lockstep s) {tok : BitVec 64} {j : Nat} (hj : j ∈ s.liveHot tok)
    (hne : j ≠ s.survivor tok) : (s.t3.records[j]!).rank < (s.t3.records[s.survivor tok]!).rank := by
  have hsurv := survivor_mem (List.ne_nil_of_mem hj)
  have hbest := not_better_select (strictWeak_better s) (s.liveHot tok)[0]! (s.liveHot tok) j
    (List.mem_cons_of_mem _ hj)
  rw [better_iff, not_lt] at hbest
  refine lt_of_le_of_ne hbest fun heq => hne ?_
  obtain ⟨r, hr, -⟩ := mem_liveHot.1 hj
  obtain ⟨q, hq, -⟩ := mem_liveHot.1 hsurv
  have hid : (s.t3.records[j]!).id.toNat = (s.t3.records[s.survivor tok]!).id.toNat :=
    congrArg (fun k => OrderDual.ofDual (ofLex (ofLex k).2).2) heq
  rw [List.getElem!_eq_getElem?_getD, List.getElem!_eq_getElem?_getD, hr, hq, Option.getD_some, Option.getD_some,
    hs.recordId hr, hs.recordId hq] at hid
  exact hid

/-- What the plan holds of a posting list. -/
theorem cluster_eq (hs : Lockstep s) {tok : BitVec 64} {ps : List Nat} (hps : s.t3.lexical[tok]? = some ps) :
    s.cluster ps = if 2 ≤ (s.liveHot tok).length then some (s.survivor tok, s.losers tok) else none := by
  have hlive : ps.filter (fun ri => s.t3.records[ri]!.active) = s.liveHot tok := by
    refine List.Pairwise.eq_of_mem_iff ((hs.ascending hps).filter _) (ascending_liveHot s tok) fun i => ?_
    rw [List.mem_filter, postings_eq hs hps, mem_liveHot, List.mem_findIdxs_iff_exists_getElem_pos]
    constructor
    · rintro ⟨⟨hlt, htok⟩, hactive⟩
      rw [List.getElem!_eq_getElem?_getD, List.getElem?_eq_getElem hlt] at hactive
      exact ⟨_, List.getElem?_eq_getElem hlt, beq_iff_eq.1 htok, hactive⟩
    · rintro ⟨r, hr, htok, hactive⟩
      obtain ⟨hlt, rfl⟩ := List.getElem?_eq_some_iff.1 hr
      refine ⟨⟨hlt, beq_iff_eq.2 htok⟩, ?_⟩
      rw [List.getElem!_eq_getElem?_getD, hr]
      exact hactive
  rw [cluster]
  dsimp only
  rw [hlive]
  split_ifs with hshort hlong hlong
  · omega
  · rfl
  · rfl
  · omega

/-- The plan is the batch, token by token. -/
theorem distillPlan_eq (hs : Lockstep s) :
    s.distillPlan = s.batch.map fun tok => (s.survivor tok, s.losers tok) := by
  have hplan : (s.t3.lexical.toList.map Prod.snd).filterMap s.cluster =
      s.duplicated.map fun tok => (s.survivor tok, s.losers tok) := by
    have hpair : ∀ p ∈ s.t3.lexical.toList, s.cluster p.2 =
        if 2 ≤ (s.liveHot p.1).length then some (s.survivor p.1, s.losers p.1) else none := fun p hp =>
      cluster_eq hs (Std.TreeMap.mem_toList_iff_getElem?_eq_some.1 hp)
    rw [duplicated, ← Std.TreeMap.map_fst_toList_eq_keys, List.filterMap_map]
    generalize s.t3.lexical.toList = l at hpair
    induction l with
    | nil => rfl
    | cons p l ih =>
        obtain ⟨hp, hl⟩ := List.forall_mem_cons.1 hpair
        rw [List.filterMap_cons, Function.comp_apply, hp, List.map_cons]
        by_cases hdup : 2 ≤ (s.liveHot p.1).length
        · rw [if_pos hdup, List.filter_cons_of_pos (by exact decide_eq_true hdup), List.map_cons, ih hl]
        · rw [if_neg hdup, List.filter_cons_of_neg (by exact mt of_decide_eq_true hdup), ih hl]
  rw [distillPlan, hplan, batch, List.map_take]

theorem ascending_duplicated (s : MemSubstrate) : s.duplicated.Pairwise (· < ·) := by
  have hkeys : s.t3.lexical.keys.Pairwise fun a b => compare a b = .lt := Std.TreeMap.ordered_keys
  exact (hkeys.imp compareOfLessAndEq_eq_lt.1).filter _

/-- The index misses no token that has records. -/
theorem mem_duplicated (hs : Lockstep s) {tok : BitVec 64} :
    tok ∈ s.duplicated ↔ 2 ≤ (s.liveHot tok).length := by
  rw [duplicated, List.mem_filter, decide_eq_true_eq]
  refine ⟨And.right, fun hdup => ⟨?_, hdup⟩⟩
  obtain ⟨i, hi⟩ := List.exists_mem_of_length_pos (Nat.zero_lt_of_lt hdup)
  obtain ⟨r, hr, htok, -⟩ := mem_liveHot.1 hi
  obtain ⟨ps, hps, -⟩ := (hs.carries tok i).2 ⟨r, hr, htok⟩
  rw [Std.TreeMap.mem_keys, Std.TreeMap.mem_iff_isSome_getElem?, hps]
  rfl

end Clusters

theorem filter_not_mem_take {α : Type*} [DecidableEq α] {l : List α} (h : l.Nodup) (n : Nat) :
    l.filter (fun a => decide (a ∉ l.take n)) = l.drop n := by
  obtain ⟨-, -, hdisj⟩ := List.nodup_append'.1 ((List.take_append_drop n l).symm ▸ h)
  have hfront : (l.take n).filter (fun a => decide (a ∉ l.take n)) = [] :=
    List.filter_eq_nil_iff.2 fun a ha hout => of_decide_eq_true hout ha
  have hback : (l.drop n).filter (fun a => decide (a ∉ l.take n)) = l.drop n :=
    List.filter_eq_self.2 fun a ha => decide_eq_true fun hin => hdisj hin ha
  calc l.filter (fun a => decide (a ∉ l.take n))
      = (l.take n ++ l.drop n).filter (fun a => decide (a ∉ l.take n)) := by rw [List.take_append_drop]
    _ = l.drop n := by rw [List.filter_append, hfront, hback, List.nil_append]

/-! ## One call -/

/-- The two links a loser leaves on its survivor. -/
def mergeLinks (s : MemSubstrate) (l : Nat) : List (UInt8 × BitVec 64) :=
  [(LINK_SUPERSEDES, s.t3.records[l]!.id), (LINK_CITES, s.t3.records[l]!.id)]

namespace MemSubstrate

/-- What distilling the tokens `toks` makes of the record at `i`. -/
def distilledBy (s : MemSubstrate) (toks : List (BitVec 64)) (i : Nat) (r : MemRecord) : MemRecord :=
  if r.active = true ∧ r.token ∈ toks then
    if i = s.survivor r.token then (r.linked ((s.losers r.token).flatMap (mergeLinks s))).asDistilled
    else r.invalidate s.clock
  else r

end MemSubstrate

theorem id_of_spine {s t : MemSubstrate} (h : spine t = spine s) (k : Nat) :
    t.t3.records[k]!.id = s.t3.records[k]!.id := by
  have hid : ∀ u : MemSubstrate, u.t3.records[k]!.id = (((spine u).records[k]?).map Prod.fst).getD 0 := fun u => by
    rw [spine, List.getElem?_map, List.getElem!_eq_getElem?_getD]
    cases u.t3.records[k]? <;> rfl
  rw [hid, hid, h]

theorem mergeLinks_of_spine {s t : MemSubstrate} (h : spine t = spine s) : mergeLinks t = mergeLinks s := by
  funext l
  rw [mergeLinks, mergeLinks, id_of_spine h]

/-- What merging the losers `ls` into `surv` makes of the record at `i`. -/
def mergedInto (surv : Nat) (ls : List Nat) (links : List (UInt8 × BitVec 64)) (clock : BitVec 64) (i : Nat)
    (r : MemRecord) : MemRecord :=
  if i = surv then r.linked links else if i ∈ ls then r.invalidate clock else r

theorem getElem?_losers {surv : Nat} : ∀ {ls : List Nat} {t : MemSubstrate}, surv ∉ ls → ∀ i,
    (ls.foldl (mergeLoser surv) t).t3.records[i]? =
      t.t3.records[i]?.map (mergedInto surv ls (ls.flatMap (mergeLinks t)) t.clock i)
  | [], t, _, i => by
    have hkeep : mergedInto surv [] [] t.clock i = id := by
      funext r
      rw [mergedInto, if_neg List.not_mem_nil]
      split
      · exact congrArg (fun ls => { r with links := ls }) (List.append_nil r.links)
      · rfl
    rw [List.flatMap_nil, hkeep, Option.map_id_fun]
    rfl
  | l :: ls, t, hsurv, i => by
    obtain ⟨hne, hrest⟩ := List.ne_and_not_mem_of_not_mem_cons hsurv
    have hspine := spine_mergeLoser surv t l
    have hclock : (mergeLoser surv t l).clock = t.clock := rfl
    rw [List.foldl_cons, getElem?_losers hrest, mergeLinks_of_spine hspine, records_mergeLoser, hclock,
      Option.map_map, Option.map_map]
    congr 1
    funext r
    simp only [Function.comp_apply, mergedInto]
    rcases eq_or_ne i surv with rfl | hi
    · rw [if_pos rfl, if_pos rfl, if_pos rfl, if_neg hne.symm, List.flatMap_cons]
      exact congrArg (fun ls => { r with links := ls }) (List.append_assoc ..)
    · rw [if_neg hi, if_neg hi, if_neg hi.symm]
      rcases eq_or_ne l i with rfl | hl
      · rw [if_pos rfl, if_pos List.mem_cons_self]
        split <;> rfl
      · rw [if_neg hl]
        simp only [List.mem_cons, hl.symm, false_or]

theorem getElem?_mergeCluster {t : MemSubstrate} {surv : Nat} {ls : List Nat} (hsurv : surv ∉ ls) (i : Nat) :
    (mergeCluster t (surv, ls)).t3.records[i]? = t.t3.records[i]?.map fun r =>
      if i = surv then (r.linked (ls.flatMap (mergeLinks t))).asDistilled
      else if i ∈ ls then r.invalidate t.clock else r := by
  have hcore := congrArg (fun c => c.1.records[i]?) (core_mergeCluster t (surv, ls))
  refine hcore.trans ?_
  show ((ls.foldl (mergeLoser surv) t).t3.records.modify surv MemRecord.asDistilled)[i]? = _
  rw [List.getElem?_modify, getElem?_losers hsurv, Option.map_eq_map, Option.map_map]
  congr 1
  funext r
  simp only [Function.comp_apply, mergedInto]
  rcases eq_or_ne i surv with rfl | hi
  · simp only [if_true]
  · simp only [if_neg hi, if_neg hi.symm]

section Plan

variable {s : MemSubstrate} (hs : Lockstep s)

theorem spine_plan (plan : List (Nat × List Nat)) (s : MemSubstrate) :
    spine (plan.foldl mergeCluster s) = spine s := Update.foldl_keeps spine_mergeCluster plan s

theorem survivor_not_mem_losers (tok : BitVec 64) : s.survivor tok ∉ s.losers tok := by
  simp [losers]

theorem nodup_duplicated (s : MemSubstrate) : s.duplicated.Nodup :=
  (ascending_duplicated s).imp BitVec.ne_of_lt

theorem nodup_batch (s : MemSubstrate) : s.batch.Nodup := (nodup_duplicated s).sublist (List.take_sublist _ _)

theorem t3_distill (s : MemSubstrate) : s.distill.2.t3 = (s.distillPlan.foldl mergeCluster s).t3 := by
  rw [distill]
  dsimp only
  split <;> rfl

theorem token_distilledBy (toks : List (BitVec 64)) (i : Nat) (r : MemRecord) :
    (s.distilledBy toks i r).token = r.token := by
  rw [distilledBy]
  split_ifs <;> rfl

theorem active_distilledBy (hclock : s.clock ≠ 0) (toks : List (BitVec 64)) (i : Nat) (r : MemRecord) :
    (s.distilledBy toks i r).active = true ↔
      r.active = true ∧ (r.token ∈ toks → i = s.survivor r.token) := by
  have hdead : (r.invalidate s.clock).active = false := by
    rw [MemRecord.active, MemRecord.invalidate, beq_false_of_ne hclock, Bool.false_and]
  have hkept : ∀ links, ((r.linked links).asDistilled).active = r.active := fun _ => rfl
  rw [distilledBy]
  split_ifs with hmerge hsurv
  · rw [hkept]
    exact ⟨fun h => ⟨h, fun _ => hsurv⟩, And.left⟩
  · rw [hdead]
    exact iff_of_false Bool.noConfusion fun h => hsurv (h.2 hmerge.2)
  · exact ⟨fun h => ⟨h, fun htok => absurd ⟨h, htok⟩ hmerge⟩, And.left⟩

/-- A mark of zero marks nothing. -/
theorem active_distilledBy_zero (hclock : s.clock = 0) (toks : List (BitVec 64)) (i : Nat) (r : MemRecord) :
    (s.distilledBy toks i r).active = r.active := by
  rw [distilledBy]
  split_ifs with hmerge hsurv
  · rfl
  · have hlive := hmerge.1
    rw [MemRecord.active, Bool.and_eq_true] at hlive
    rw [MemRecord.active, MemRecord.invalidate, MemRecord.active, hclock, eq_of_beq hlive.1]
  · rfl

include hs

/-- Distilling token after token edits each position once. -/
theorem records_plan (toks : List (BitVec 64)) (hnodup : toks.Nodup) (hdup : ∀ tok ∈ toks, tok ∈ s.duplicated)
    (i : Nat) :
    ((toks.map fun tok => (s.survivor tok, s.losers tok)).foldl mergeCluster s).t3.records[i]? =
      s.t3.records[i]?.map (s.distilledBy toks i) := by
  induction toks using List.reverseRecOn with
  | nil =>
      have hkeep : s.distilledBy [] i = id := funext fun r => if_neg fun h => nomatch h.2
      rw [hkeep, Option.map_id_fun]
      rfl
  | append_singleton toks tok ih =>
      have hprev := ih (List.Nodup.of_append_left hnodup) fun tok htok => hdup tok (List.mem_append_left _ htok)
      have hnew : tok ∉ toks := fun h => (List.nodup_append'.1 hnodup).2.2 h List.mem_cons_self
      have hlive : s.liveHot tok ≠ [] := by
        have htwo := (mem_duplicated hs).1 (hdup tok (List.mem_append_right _ List.mem_cons_self))
        exact List.ne_nil_of_length_pos (Nat.zero_lt_of_lt htwo)
      have hspine := spine_plan (toks.map fun tok => (s.survivor tok, s.losers tok)) s
      have hclock := (merging_plan (toks.map fun tok => (s.survivor tok, s.losers tok)) s).clock
      rw [List.map_append, List.foldl_append, List.map_singleton, List.foldl_cons, List.foldl_nil,
        getElem?_mergeCluster (survivor_not_mem_losers tok), mergeLinks_of_spine hspine, hclock, hprev,
        Option.map_map]
      cases hr : s.t3.records[i]? with
      | none => rfl
      | some r =>
          rw [Option.map_some, Option.map_some, Function.comp_apply]
          congr 1
          by_cases hmem : i ∈ s.liveHot tok
          · obtain ⟨q, hq, htok, hactive⟩ := mem_liveHot.1 hmem
            obtain rfl : q = r := Option.some.inj (hq.symm.trans hr)
            have hfresh : s.distilledBy toks i q = q := if_neg fun h => hnew (htok ▸ h.2)
            have hedit : s.distilledBy (toks ++ [tok]) i q = if i = s.survivor tok then
                (q.linked ((s.losers tok).flatMap (mergeLinks s))).asDistilled else q.invalidate s.clock := by
              rw [distilledBy, if_pos ⟨hactive, htok ▸ List.mem_append_right _ List.mem_cons_self⟩, htok]
            rw [hfresh, hedit]
            rcases eq_or_ne i (s.survivor tok) with hi | hi
            · rw [if_pos hi, if_pos hi]
            · have hloser : i ∈ s.losers tok := List.mem_filter.2 ⟨hmem, bne_iff_ne.2 hi⟩
              rw [if_neg hi, if_neg hi, if_pos hloser]
          · have hsurv : i ≠ s.survivor tok := fun h => hmem (h ▸ survivor_mem hlive)
            have hloser : i ∉ s.losers tok := fun h => hmem (List.mem_filter.1 h).1
            have hother : ¬ (r.active = true ∧ r.token = tok) := fun h => hmem (mem_liveHot.2 ⟨r, hr, h.2, h.1⟩)
            have hiff : (r.active = true ∧ r.token ∈ toks ++ [tok]) ↔ r.active = true ∧ r.token ∈ toks := by
              rw [List.mem_append, List.mem_singleton]
              exact ⟨fun h => ⟨h.1, h.2.resolve_right fun heq => hother ⟨h.1, heq⟩⟩, fun h => ⟨h.1, .inl h.2⟩⟩
            rw [if_neg hsurv, if_neg hloser, distilledBy, distilledBy, if_congr hiff rfl rfl]

/-- One call edits each position once. -/
theorem records_distill (i : Nat) :
    s.distill.2.t3.records[i]? = s.t3.records[i]?.map (s.distilledBy s.batch i) := by
  rw [t3_distill, distillPlan_eq hs]
  exact records_plan hs s.batch (nodup_batch s) (fun tok htok => List.mem_of_mem_take htok) i

theorem mem_batch_liveHot {tok : BitVec 64} (h : tok ∈ s.batch) : s.liveHot tok ≠ [] :=
  List.ne_nil_of_length_pos (Nat.zero_lt_of_lt ((mem_duplicated hs).1 (List.mem_of_mem_take h)))

/-- Where the live hot records of a token are after the call. -/
theorem mem_liveHot_distill {tok : BitVec 64} {i : Nat} :
    i ∈ s.distill.2.liveHot tok ↔
      ∃ r, s.t3.records[i]? = some r ∧ r.token = tok ∧ (s.distilledBy s.batch i r).active = true := by
  rw [mem_liveHot, records_distill hs]
  constructor
  · rintro ⟨r', hr', htok, hactive⟩
    obtain ⟨r, hr, rfl⟩ := Option.map_eq_some_iff.1 hr'
    exact ⟨r, hr, (token_distilledBy _ i r).symm.trans htok, hactive⟩
  · rintro ⟨r, hr, htok, hactive⟩
    exact ⟨_, Option.map_eq_some_iff.2 ⟨r, hr, rfl⟩, (token_distilledBy _ i r).trans htok, hactive⟩

/-- Under a clock that marks the dead the survivor of a distilled token is left, and no other token
is touched. -/
theorem liveHot_distill (hclock : s.clock ≠ 0) (tok : BitVec 64) :
    s.distill.2.liveHot tok = if tok ∈ s.batch then [s.survivor tok] else s.liveHot tok := by
  refine List.Pairwise.eq_of_mem_iff (ascending_liveHot _ tok) ?_ fun i => ?_
  · split
    · exact List.pairwise_singleton _ _
    · exact ascending_liveHot s tok
  · rw [mem_liveHot_distill hs]
    simp only [active_distilledBy hclock]
    split_ifs with hbatch
    · rw [List.mem_singleton]
      constructor
      · rintro ⟨r, -, rfl, -, hsurv⟩
        exact hsurv hbatch
      · rintro rfl
        obtain ⟨r, hr, rfl, hactive⟩ := mem_liveHot.1 (survivor_mem (mem_batch_liveHot hs hbatch))
        exact ⟨r, hr, rfl, hactive, fun _ => rfl⟩
    · rw [mem_liveHot]
      constructor
      · rintro ⟨r, hr, htok, hactive, -⟩
        exact ⟨r, hr, htok, hactive⟩
      · rintro ⟨r, hr, rfl, hactive⟩
        exact ⟨r, hr, rfl, hactive, fun h => absurd h hbatch⟩

theorem liveHot_distill_zero (hclock : s.clock = 0) (tok : BitVec 64) :
    s.distill.2.liveHot tok = s.liveHot tok := by
  refine List.Pairwise.eq_of_mem_iff (ascending_liveHot _ tok) (ascending_liveHot s tok) fun i => ?_
  rw [mem_liveHot_distill hs, mem_liveHot]
  simp only [active_distilledBy_zero hclock]

/-- A call takes a batch off the duplicated tokens, unless its clock marks nothing. -/
theorem duplicated_distill :
    s.distill.2.duplicated = if s.clock = 0 then s.duplicated else s.duplicated.drop DISTILL_BATCH := by
  have hlexical : s.distill.2.t3.lexical = s.t3.lexical := congrArg Spine.lexical (spine_distill s)
  rw [duplicated, hlexical]
  split_ifs with hclock
  · simp only [liveHot_distill_zero hs hclock, duplicated]
  · have hrest : s.duplicated.filter (fun tok => decide (tok ∉ s.batch)) = s.duplicated.drop DISTILL_BATCH :=
      filter_not_mem_take (nodup_duplicated s) DISTILL_BATCH
    rw [← hrest, duplicated, List.filter_filter]
    refine List.filter_congr fun tok _ => ?_
    rw [liveHot_distill hs hclock]
    split_ifs with hbatch
    · simp [hbatch]
    · simp [hbatch]

theorem distill_idle (h : s.duplicated = []) : s.distill = (0, s) := by
  have hplan : s.distillPlan = [] := by
    rw [distillPlan_eq hs, batch, h]
    rfl
  rw [distill, hplan]
  rfl

theorem clock_distill (h : s.duplicated ≠ []) : s.distill.2.clock = s.clock + 1 := by
  have hplan : s.distillPlan ≠ [] := by
    rw [distillPlan_eq hs, batch, Ne, List.map_eq_nil_iff, List.take_eq_nil_iff]
    exact not_or.2 ⟨by decide, h⟩
  have hmerged : 0 < (s.distillPlan.map fun c => c.2.length).sum := by
    obtain ⟨c, hc⟩ := List.exists_mem_of_ne_nil _ hplan
    have hlosers := List.length_pos_of_ne_nil (plan_losers hs c hc).1
    exact hlosers.trans_le (List.single_le_sum (fun _ _ => Nat.zero_le _) _ (List.mem_map_of_mem hc))
  rw [distill]
  dsimp only
  rw [if_pos hmerged]
  exact congrArg (· + 1) (merging_plan s.distillPlan s).clock

end Plan

/-- One call: every token of the batch is left with the record that outranks its others, linked twice
to each of them, and nothing else changes. -/
structure Distilled (s : MemSubstrate) (merged : Nat) (s' : MemSubstrate) : Prop where
  survivors : ∀ tok ∈ s.batch, ∃ (i : Nat) (r : MemRecord), i ∈ s.liveHot tok ∧
    s.t3.records[i]? = some r ∧ (∀ (j : Nat) (q : MemRecord), j ∈ s.liveHot tok → s.t3.records[j]? = some q → j ≠ i →
      q.rank < r.rank ∧ s'.t3.records[j]? = some (q.invalidate s.clock)) ∧
    s'.t3.records[i]? = some { r with
      links := r.links ++ ((s.liveHot tok).filter fun j => j != i).flatMap (mergeLinks s)
      provenance := .distilled } ∧
    s'.liveHot tok = [i]
  spared : ∀ (i : Nat) (r : MemRecord), s.t3.records[i]? = some r → ¬ (r.active = true ∧ r.token ∈ s.batch) →
    s'.t3.records[i]? = some r
  length : s'.t3.records.length = s.t3.records.length
  journal : s'.t2 = s.t2
  tombstoned : merged = (List.range s.t3.records.length).countP fun i =>
    s.t3.records[i]!.tInvalid == 0 && s'.t3.records[i]!.tInvalid != 0

theorem t2_mergeCluster (s : MemSubstrate) (c : Nat × List Nat) : (mergeCluster s c).t2 = s.t2 := by
  have hemit : ∀ (t : MemSubstrate) (kind stream verdict : UInt8) (tok aux : BitVec 64)
      (outcome : Corpus.OutcomeLabel), (t.corpusEmit kind stream verdict tok aux outcome).t2 = t.t2 := by
    intro t kind stream verdict tok aux outcome
    rw [corpusEmit]
    dsimp only
    split
    · rfl
    · split <;> rfl
  have hlosers : (c.2.foldl (mergeLoser c.1) s).t2 = s.t2 :=
    Update.foldl_keeps (g := t2) (f := mergeLoser c.1) (fun _ _ => rfl) c.2 s
  exact (hemit _ _ _ _ _ _ _).trans hlosers

theorem t2_distill (s : MemSubstrate) : s.distill.2.t2 = s.t2 := by
  have hplan : (s.distillPlan.foldl mergeCluster s).t2 = s.t2 := Update.foldl_keeps t2_mergeCluster _ s
  rw [distill]
  dsimp only
  split <;> exact hplan

section Contract

variable {s : MemSubstrate} (hs : Lockstep s)

/-- The losers of the batch are the records the call tombstones. -/
theorem mem_losers_iff (hclock : s.clock ≠ 0) {i : Nat} {r : MemRecord} (hr : s.t3.records[i]? = some r) :
    (∃ tok ∈ s.batch, i ∈ s.losers tok) ↔
      r.tInvalid = 0 ∧ (s.distilledBy s.batch i r).tInvalid ≠ 0 := by
  have hlosers : (∃ tok ∈ s.batch, i ∈ s.losers tok) ↔
      r.active = true ∧ r.token ∈ s.batch ∧ i ≠ s.survivor r.token := by
    constructor
    · rintro ⟨tok, hbatch, hi⟩
      obtain ⟨hlive, hne⟩ := List.mem_filter.1 hi
      obtain ⟨q, hq, rfl, hactive⟩ := mem_liveHot.1 hlive
      obtain rfl : q = r := Option.some.inj (hq.symm.trans hr)
      exact ⟨hactive, hbatch, bne_iff_ne.1 hne⟩
    · rintro ⟨hactive, hbatch, hne⟩
      exact ⟨r.token, hbatch, List.mem_filter.2 ⟨mem_liveHot.2 ⟨r, hr, rfl, hactive⟩, bne_iff_ne.2 hne⟩⟩
  rw [hlosers, distilledBy]
  split_ifs with hmerge hsurv
  · exact iff_of_false (fun h => h.2.2 hsurv) fun h => h.2 h.1
  · have hlive := hmerge.1
    rw [MemRecord.active, Bool.and_eq_true, beq_iff_eq] at hlive
    exact iff_of_true ⟨hmerge.1, hmerge.2, hsurv⟩ ⟨hlive.1, hclock⟩
  · exact iff_of_false (fun h => hmerge ⟨h.1, h.2.1⟩) fun h => h.2 h.1

include hs

theorem merged_eq : s.distill.1 = (s.batch.flatMap s.losers).length := by
  have hmerged : s.distill.1 = (s.distillPlan.map fun c => c.2.length).sum := rfl
  rw [hmerged, distillPlan_eq hs, List.map_map, List.length_flatMap]
  rfl

theorem nodup_losers : (s.batch.flatMap s.losers).Nodup := by
  have hplan := plan_nodup hs
  rwa [distillPlan_eq hs, List.flatMap_map] at hplan

theorem distilled_distill (hclock : s.clock ≠ 0) : Distilled s s.distill.1 s.distill.2 where
  survivors tok htok := by
    have hmem := survivor_mem (mem_batch_liveHot hs htok)
    obtain ⟨r, hr, rfl, hactive⟩ := mem_liveHot.1 hmem
    refine ⟨_, r, hmem, hr, fun j q hj hq hne => ?_, ?_, by rw [liveHot_distill hs hclock, if_pos htok]⟩
    · obtain ⟨q', hq', htok', hactive'⟩ := mem_liveHot.1 hj
      obtain rfl : q' = q := Option.some.inj (hq'.symm.trans hq)
      have hrank := survivor_outranks hs hj hne
      rw [List.getElem!_eq_getElem?_getD, List.getElem!_eq_getElem?_getD, hq, hr] at hrank
      refine ⟨hrank, ?_⟩
      rw [records_distill hs, hq, Option.map_some, distilledBy, htok', if_pos ⟨hactive', htok⟩, if_neg hne]
    · rw [records_distill hs, hr, Option.map_some, distilledBy, if_pos ⟨hactive, htok⟩, if_pos rfl]
      rfl
  spared i r hr hother := by rw [records_distill hs, hr, Option.map_some, distilledBy, if_neg hother]
  length := (merging_distill s).1
  journal := t2_distill s
  tombstoned := by
    rw [merged_eq hs, List.countP_eq_length_filter]
    refine ((List.perm_ext_iff_of_nodup (nodup_losers hs) (List.nodup_range.filter _)).2 fun i => ?_).length_eq
    rw [List.mem_flatMap, List.mem_filter, List.mem_range, Bool.and_eq_true, beq_iff_eq, bne_iff_ne]
    cases hr : s.t3.records[i]? with
    | none =>
        have hge := List.getElem?_eq_none_iff.1 hr
        refine iff_of_false ?_ fun h => absurd h.1 hge.not_gt
        rintro ⟨tok, -, hi⟩
        obtain ⟨r, hr', -⟩ := mem_liveHot.1 (List.mem_filter.1 hi).1
        exact nomatch hr.symm.trans hr'
    | some r =>
        have hafter := records_distill hs i
        rw [hr, Option.map_some] at hafter
        rw [mem_losers_iff hclock hr, List.getElem!_eq_getElem?_getD, List.getElem!_eq_getElem?_getD, hr, hafter]
        exact (and_iff_right (List.getElem?_eq_some_iff.1 hr).1).symm

/-- Without duplicates there is nothing to keep. -/
theorem distilled_idle (h : s.duplicated = []) : Distilled s s.distill.1 s.distill.2 := by
  have hbatch : s.batch = [] := by rw [batch, h, List.take_nil]
  rw [distill_idle hs h]
  refine ⟨fun tok htok => ?_, fun _ _ hr _ => hr, rfl, rfl, ?_⟩
  · rw [hbatch] at htok
    exact nomatch htok
  · refine (List.countP_eq_zero.2 fun i _ => ?_).symm
    simp

end Contract

/-! ## Call after call -/

/-- The memory after `n` calls. -/
def MemSubstrate.distills (s : MemSubstrate) (n : Nat) : MemSubstrate := (fun s => s.distill.2)^[n] s

theorem distills_succ (s : MemSubstrate) (n : Nat) : s.distills (n + 1) = (s.distills n).distill.2 :=
  Function.iterate_succ_apply' _ n s

/-- How many of the first `n` calls find a clock that marks the dead. -/
def markingCalls (s : MemSubstrate) (n : Nat) : Nat :=
  (List.range n).countP fun k => decide (s.clock + BitVec.ofNat 64 k ≠ 0)

/-- How many calls the duplicated tokens of `s` take. -/
def callsNeeded (s : MemSubstrate) : Nat := s.duplicated.length ⌈/⌉ DISTILL_BATCH

section Calls

variable {s : MemSubstrate} {j : Journal} (hj : Mirrors s j)

theorem markingCalls_le (s : MemSubstrate) (n : Nat) : markingCalls s n ≤ n :=
  List.countP_le_length.trans_eq List.length_range

theorem lt_callsNeeded {n : Nat} : n < callsNeeded s ↔ DISTILL_BATCH * n < s.duplicated.length := by
  rw [callsNeeded, ← not_le, ceilDiv_le_iff_le_mul (by decide), not_le]

include hj

theorem mirrors_distills (n : Nat) : Mirrors (s.distills n) j := by
  induction n with
  | zero => exact hj
  | succ n ih =>
      rw [distills_succ]
      exact ih.of_spine (spine_distill _)

/-- Until the duplicated tokens are used up each call ticks, and takes a batch off them where its
clock marks the dead. -/
theorem distills_spec : ∀ n, n ≤ callsNeeded s →
    (s.distills n).clock = s.clock + BitVec.ofNat 64 n ∧
      (s.distills n).duplicated = s.duplicated.drop (DISTILL_BATCH * markingCalls s n)
  | 0, _ => ⟨(BitVec.add_zero _).symm, rfl⟩
  | n + 1, hn => by
    obtain ⟨hclock, hdup⟩ := distills_spec n (Nat.le_of_succ_le hn)
    have hs := (mirrors_distills hj n).lockstep
    have hleft : (s.distills n).duplicated ≠ [] := by
      rw [hdup, Ne, List.drop_eq_nil_iff, not_le]
      have hmarked := Nat.mul_le_mul_left DISTILL_BATCH (markingCalls_le s n)
      exact hmarked.trans_lt (lt_callsNeeded.1 hn)
    have hcount : markingCalls s (n + 1) =
        markingCalls s n + if s.clock + BitVec.ofNat 64 n = 0 then 0 else 1 := by
      rw [markingCalls, List.range_succ, List.countP_append, List.countP_singleton, markingCalls]
      by_cases hzero : s.clock + BitVec.ofNat 64 n = 0
      · rw [if_pos hzero, if_neg (by simp [hzero])]
      · rw [if_neg hzero, if_pos (decide_eq_true hzero)]
    rw [distills_succ]
    constructor
    · rw [clock_distill hs hleft, hclock, BitVec.add_assoc, BitVec.ofNat_add]
      rfl
    · rw [duplicated_distill hs, hclock, hcount, hdup]
      split_ifs with hzero
      · rw [Nat.add_zero]
      · rw [List.drop_drop, Nat.mul_add, Nat.mul_one]

/-- The calls needed are enough exactly when each of them finds a clock that marks the dead. -/
theorem drained_iff : (s.distills (callsNeeded s)).duplicated = [] ↔
    ∀ k < callsNeeded s, s.clock + BitVec.ofNat 64 k ≠ 0 := by
  rw [(distills_spec hj _ le_rfl).2, List.drop_eq_nil_iff]
  have hall : callsNeeded s ≤ markingCalls s (callsNeeded s) ↔
      ∀ k < callsNeeded s, s.clock + BitVec.ofNat 64 k ≠ 0 := by
    have hlen := List.countP_eq_length (p := fun k => decide (s.clock + BitVec.ofNat 64 k ≠ 0))
      (l := List.range (callsNeeded s))
    rw [List.length_range] at hlen
    simp only [List.mem_range, decide_eq_true_eq] at hlen
    rw [← hlen]
    exact ⟨fun h => le_antisymm (markingCalls_le s _) h, fun h => h.ge⟩
  rw [← hall, callsNeeded, ceilDiv_le_iff_le_mul (by decide)]

end Calls

/-- What distillation is for: a call merges the first batch of duplicated tokens, and so many calls
leave at most one live hot record a token, and nothing for the calls after them. -/
structure Distills (s : MemSubstrate) : Prop where
  order : s.duplicated.Pairwise (· < ·)
  exact : ∀ tok, tok ∈ s.duplicated ↔ 2 ≤ (s.liveHot tok).length
  merges : Distilled s s.distill.1 s.distill.2
  drains : ∀ tok, ((s.distills (callsNeeded s)).liveHot tok).length ≤ 1
  rests : ∀ n ≥ callsNeeded s, (s.distills n).distill = (0, s.distills n)

section Drains

variable {s : MemSubstrate} {j : Journal} (hj : Mirrors s j)

include hj

theorem rests_of_drained (h : (s.distills (callsNeeded s)).duplicated = []) {n : Nat} (hn : callsNeeded s ≤ n) :
    (s.distills n).distill = (0, s.distills n) := by
  have hempty : (s.distills n).duplicated = [] := by
    induction n, hn using Nat.le_induction with
    | base => exact h
    | succ n _ ih => rw [distills_succ, distill_idle (mirrors_distills hj n).lockstep ih, ih]
  exact distill_idle (mirrors_distills hj n).lockstep hempty

/-- Distillation does what it is for exactly when no call that merges is made at clock zero. -/
theorem distills_of_mirrors : Distills s ↔ ∀ k < callsNeeded s, s.clock + BitVec.ofNat 64 k ≠ 0 := by
  have hs := hj.lockstep
  have hend := (mirrors_distills hj (callsNeeded s)).lockstep
  rw [← drained_iff hj]
  constructor
  · intro h
    refine List.eq_nil_iff_forall_not_mem.2 fun tok htok => ?_
    have htwo := (mem_duplicated hend).1 htok
    have hone := h.drains tok
    omega
  · intro hdrained
    refine ⟨ascending_duplicated s, fun tok => mem_duplicated hs, ?_, fun tok => ?_, fun n hn =>
      rests_of_drained hj hdrained hn⟩
    · by_cases hdup : s.duplicated = []
      · exact distilled_idle hs hdup
      · have hpos : 0 < callsNeeded s := lt_callsNeeded.2 (List.length_pos_of_ne_nil hdup)
        have hclock := (drained_iff hj).1 hdrained 0 hpos
        exact distilled_distill hs fun hzero => hclock ((BitVec.add_zero _).trans hzero)
    · have hnot : tok ∉ (s.distills (callsNeeded s)).duplicated := hdrained ▸ List.not_mem_nil
      rw [mem_duplicated hend] at hnot
      omega

end Drains

theorem distills_iff (ops : List Op) :
    Distills (reached ops) ↔
      ∀ k < callsNeeded (reached ops), (reached ops).clock + BitVec.ofNat 64 k ≠ 0 := by
  obtain ⟨j, -, hj, -, -⟩ := reached_mirrors ops []
  exact distills_of_mirrors hj

/-! ### A clock that has come around -/

/-- A deletion that finds nothing only ticks. -/
theorem delete_missing {s : MemSubstrate} {key : BitVec 64} (h : ∀ r ∈ s.t3.records, r.token ≠ key) :
    s.delete key = (none, s.tick) := by
  have hmiss : ∀ r ∈ s.t3.records.reverse, ¬ (r.token == key && r.tInvalid == 0) = true := by
    intro r hr hhit
    rw [Bool.and_eq_true, beq_iff_eq] at hhit
    exact h r (List.mem_reverse.1 hr) hhit.1
  have hfind : s.t3.records.reverse.find? (fun r => r.token == key && r.tInvalid == 0) = none :=
    List.find?_eq_none.2 hmiss
  rw [delete]
  dsimp only
  rw [hfind, List.replaceF_of_forall_none fun r hr => if_neg (hmiss r hr), List.reverse_reverse]
  rfl

theorem step_missing {s : MemSubstrate} {key : BitVec 64} (h : ∀ r ∈ s.t3.records, r.token ≠ key) :
    step s (.write 2 key 0 0) = s.tick := by
  rw [step, write, if_neg (by decide), if_pos rfl, delete_missing h]

theorem exec_missing {s : MemSubstrate} {key : BitVec 64} (h : ∀ r ∈ s.t3.records, r.token ≠ key) (n : Nat) :
    (exec step s (List.replicate n (.write 2 key 0 0))).t3 = s.t3 ∧
      (exec step s (List.replicate n (.write 2 key 0 0))).clock = s.clock + BitVec.ofNat 64 n := by
  induction n generalizing s with
  | zero => exact ⟨rfl, (BitVec.add_zero _).symm⟩
  | succ n ih =>
      obtain ⟨ht3, hclock⟩ := ih (s := s.tick) h
      rw [List.replicate_succ, exec_cons, step_missing h]
      refine ⟨ht3, hclock.trans ?_⟩
      rw [Nat.add_comm n 1, BitVec.ofNat_add, ← BitVec.add_assoc]
      rfl

/-- Two records of one token, then deletions that find nothing until the clock has wrapped. -/
def wrapped : List Op :=
  [.write 0 7 70 3, .write 0 7 71 3] ++ List.replicate (2 ^ 64 - 3) (.write 2 9 0 0)

theorem not_forall_distills : ¬ ∀ ops, Distills (reached ops) := by
  intro h
  have hrecords : (reached [.write 0 7 70 3, .write 0 7 71 3]).t3.records =
      [MemRecord.fresh 0 7 3 1 .episodic [], MemRecord.fresh 1 7 3 2 .episodic []] := rfl
  have hmissing : ∀ r ∈ (reached [.write 0 7 70 3, .write 0 7 71 3]).t3.records, r.token ≠ 9 := by
    rw [hrecords]
    decide
  obtain ⟨ht3, hclock⟩ := exec_missing hmissing (2 ^ 64 - 3)
  rw [← reached_append, ← wrapped] at ht3 hclock
  obtain ⟨j, -, hj, -, -⟩ := reached_mirrors wrapped []
  have hdup : 2 ≤ ((reached wrapped).liveHot 7).length := by
    rw [liveHot, ht3, hrecords]
    decide
  have hpos : 0 < callsNeeded (reached wrapped) :=
    lt_callsNeeded.2 (List.length_pos_of_mem ((mem_duplicated hj.lockstep).2 hdup))
  have hnonzero := (distills_of_mirrors hj).1 (h wrapped) 0 hpos
  rw [hclock] at hnonzero
  exact hnonzero rfl

end Yuva.Mem
