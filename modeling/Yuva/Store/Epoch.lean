/-
# `Yuva.Store.Epoch` — the freshness epoch over whole runs

`epoch` is the generation in the high half and the appends since the mount in the low
half, and is meant never to go back, not even across reboots.  A `Rig` is the device and
the engine on it; a run appends, flushes and mounts again, in any order and with any
request failing.

    append     the low half counts on; the logs are too small for it to wrap
    flush      the high half counts on, and wraps every 2^32 generations
    remount    the high half comes back from the superblock, the low half is zero

Two things can therefore go back, and `Regresses` is when: a mount forgets the appends
counted since the last one, flushed or not; and a generation passes a multiple of 2^32.
-/
import Yuva.Lib.Run
import Yuva.Store.Durable

namespace Yuva.Store

open Yuva.Bytes Yuva.Volatile Yuva.Run VirtioBlkStore

/-! ## The value -/

/-- The two halves. -/
theorem epoch_toNat (s : VirtioBlkStore) :
    s.epoch.toNat = s.gen.toNat % 2 ^ 32 * 2 ^ 32 + s.appendsSinceMount.toNat % 2 ^ 32 := by
  have hlow : (s.appendsSinceMount &&& 0xFFFFFFFF).toNat = s.appendsSinceMount.toNat % 2 ^ 32 := by
    rw [BitVec.toNat_and]
    exact Nat.and_two_pow_sub_one_eq_mod _ 32
  have hhigh : (s.gen <<< 32).toNat = (s.gen.toNat % 2 ^ 32) <<< 32 := by
    rw [BitVec.toNat_shiftLeft, Nat.shiftLeft_eq, Nat.shiftLeft_eq]
    omega
  rw [epoch, BitVec.toNat_or, hlow, hhigh, ← Nat.shiftLeft_add_eq_or_of_lt (Nat.mod_lt _ (by decide)),
    Nat.shiftLeft_eq]

/-- The high half is about to wrap. -/
def AtWrap (gen : BitVec 64) : Prop := gen.toNat % 2 ^ 32 = 2 ^ 32 - 1

section Order

variable {s s' : VirtioBlkStore}

/-- From one generation to the next the epoch goes up, or back to the start. -/
theorem epoch_of_succ (hg : s'.gen = s.gen + 1) :
    (¬ AtWrap s.gen → s.epoch < s'.epoch) ∧ (AtWrap s.gen → ¬ s.epoch ≤ s'.epoch) := by
  have hmod : s'.gen.toNat % 2 ^ 32 = (s.gen.toNat + 1) % 2 ^ 32 := by
    rw [hg]
    show (s.gen.toNat + 1) % 2 ^ 64 % 2 ^ 32 = _
    omega
  rw [BitVec.lt_def, BitVec.le_def, epoch_toNat, epoch_toNat, hmod, AtWrap]
  constructor <;> intro h <;> omega

/-- Under one generation the epoch is the low half. -/
theorem epoch_le_of_gen (hg : s'.gen = s.gen) (hs : s.appendsSinceMount.toNat < 2 ^ 32)
    (hs' : s'.appendsSinceMount.toNat < 2 ^ 32) :
    s.epoch ≤ s'.epoch ↔ s.appendsSinceMount.toNat ≤ s'.appendsSinceMount.toNat := by
  rw [BitVec.le_def, epoch_toNat, epoch_toNat, hg, Nat.mod_eq_of_lt hs, Nat.mod_eq_of_lt hs',
    Nat.add_le_add_iff_left]

end Order

/-! ## Runs -/

/-- A device, the store last mounted on it, and whether it is still up. -/
structure Rig where
  dev : Dev Sector
  store : Option VirtioBlkStore
  up : Bool

inductive Op where
  | append (r : Region) (bytes : List UInt8)
  | flush
  | remount

namespace Rig

/-- Nothing mounted yet. -/
def cold (d : Dev Sector) : Rig := ⟨d, none, false⟩

/-- The engine, while it is up. -/
def engine (w : Rig) : Option VirtioBlkStore := if w.up then w.store else none

def step (w : Rig) : Op → Rig
  | .append r bytes =>
      match w.engine with
      | none => w
      | some s => { w with store := some (s.append r bytes).2 }
  | .flush =>
      match w.engine with
      | none => w
      | some s => { w with dev := (s.flush w.dev).2.2, store := some (s.flush w.dev).2.1 }
  | .remount =>
      match mount w.dev with
      | (.error _, d) => ⟨d, w.store, false⟩
      | (.ok s, d) => ⟨d, some s, true⟩

/-- The epoch last reported. -/
def reported (w : Rig) : Option (BitVec 64) := w.store.map epoch

/-- A flush of this rig succeeds. -/
def Flushes (w : Rig) : Prop := ∃ s, w.engine = some s ∧ (s.flush w.dev).1 = .ok ()

end Rig

/-! ## What the calls do to the halves -/

/-- The slots of a region's log that are in use. -/
def taken (s : VirtioBlkStore) (r : Region) : Nat := (s.recordCount r).toNat + (s.staged r).length

/-- The appends counted have all taken slots, and what is staged fits its log. -/
structure Counted (s : VirtioBlkStore) : Prop where
  staged : ∀ r, s.staged r = [] ∨ taken s r ≤ (regionExtent r).2
  appends : s.appendsSinceMount.toNat ≤ (regions.map fun r => min (taken s r) (regionExtent r).2).sum

/-- The low half does not wrap. -/
theorem Counted.lt {s : VirtioBlkStore} (h : Counted s) : s.appendsSinceMount.toNat < 8192 := by
  refine Nat.lt_of_le_of_lt h.appends ?_
  simp only [regions, regionExtent, List.map_cons, List.map_nil, List.sum_cons, List.sum_nil]
  omega

theorem append_cases (s : VirtioBlkStore) (r : Region) (bytes : List UInt8) :
    (s.append r bytes).2 = s ∨ (taken s r < (regionExtent r).2 ∧ (s.append r bytes).2 =
      { s with
        staged := Function.update s.staged r (s.staged r ++ [bytes])
        appendsSinceMount := s.appendsSinceMount + 1 }) := by
  rw [append]
  split
  · exact .inl rfl
  · split
    · exact .inl rfl
    · next hext => exact .inr ⟨Nat.not_le.mp hext, rfl⟩

theorem append_counted {s : VirtioBlkStore} (h : Counted s) (r : Region) (bytes : List UInt8) :
    Counted (s.append r bytes).2 := by
  rcases append_cases s r bytes with hsame | ⟨hlt, hnew⟩
  · rw [hsame]
    exact h
  · have htaken : ∀ r', taken (s.append r bytes).2 r' = if r' = r then taken s r + 1 else taken s r' := by
      intro r'
      rw [hnew, taken]
      dsimp only
      rw [Function.update_apply]
      split
      · next hr => rw [hr, List.length_append]; rfl
      · rfl
    refine ⟨fun r' => ?_, ?_⟩
    · rw [htaken]
      split
      · next hr => rw [hr]; exact .inr hlt
      · next hr =>
          rw [hnew]
          dsimp only
          rw [Function.update_of_ne hr]
          exact h.staged r'
    · have hsucc : ((s.append r bytes).2.appendsSinceMount).toNat = s.appendsSinceMount.toNat + 1 := by
        have := h.lt
        rw [hnew]
        show (s.appendsSinceMount.toNat + 1) % 2 ^ 64 = _
        exact Nat.mod_eq_of_lt (by omega)
      have hle := h.appends
      rw [hsucc]
      simp only [htaken]
      simp only [regions, List.map_cons, List.map_nil, List.sum_cons, List.sum_nil] at hle ⊢
      cases r <;> simp only [reduceCtorEq, if_false, if_true] <;> omega

/-- Folding moves slots from staged to committed. -/
theorem taken_foldStaged {s : VirtioBlkStore} (h : Counted s) (r : Region) :
    taken s.foldStaged r = taken s r := by
  have hext : (regionExtent r).2 < 2 ^ 64 := by cases r <;> decide
  show (s.recordCount r + BitVec.ofNat 64 (s.staged r).length).toNat + 0 = _
  rw [BitVec.toNat_add, BitVec.toNat_ofNat]
  rcases h.staged r with hnil | hle
  · rw [taken, hnil]
    exact Nat.mod_eq_of_lt (s.recordCount r).isLt
  · rw [taken] at hle ⊢
    omega

theorem foldStaged_counted {s : VirtioBlkStore} (h : Counted s) : Counted s.foldStaged := by
  refine ⟨fun _ => .inl rfl, ?_⟩
  simp only [taken_foldStaged h]
  exact h.appends

theorem writeFrames_superblock (r : Region) : ∀ (ps : List (List UInt8)) (idx : Nat) (q : BitVec 64)
    (d : Dev Sector), (writeFrames r ps idx q d).2.2.disk SB_SECTOR = d.disk SB_SECTOR := by
  intro ps
  induction ps with
  | nil => intro idx q d; rfl
  | cons p ps ih =>
      intro idx q d
      rw [writeFrames]
      split
      · rfl
      · next sector hs =>
          split
          · rfl
          · next sec _ =>
              have hsb := d.write_untouched (recordSector_ne_sb hs).symm sec
              split
              · next d' hw => rw [hw] at hsb; exact hsb
              · next d' hw => rw [hw] at hsb; rw [ih]; exact hsb

/-- Phase 1 moves sequence numbers and log sectors only. -/
theorem writeStaged_frame : ∀ (rs : List Region) (s : VirtioBlkStore) (d : Dev Sector),
    ∃ q, (s.writeStaged rs d).2.1 = { s with seq := q } ∧
      (s.writeStaged rs d).2.2.disk SB_SECTOR = d.disk SB_SECTOR := by
  intro rs
  induction rs with
  | nil => intro s d; exact ⟨s.seq, rfl, rfl⟩
  | cons r rs ih =>
      intro s d
      have hsb := writeFrames_superblock r (s.staged r) (s.recordCount r).toNat (s.seq r) d
      rw [writeStaged]
      split
      · next e q d' hw => rw [hw] at hsb; exact ⟨_, rfl, hsb⟩
      · next q d' hw =>
          rw [hw] at hsb
          obtain ⟨q', hs', hd'⟩ := ih { s with seq := Function.update s.seq r q } d'
          exact ⟨q', hs', hd'.trans hsb⟩

/-- How a flush ends: before the fold, between the fold and the last barrier, or done. -/
inductive FlushEnds (s : VirtioBlkStore) (d : Dev Sector) :
    Except MemErr Unit × VirtioBlkStore × Dev Sector → Prop
  | early (e : MemErr) (q : Region → BitVec 64) (d' : Dev Sector) :
      d'.disk SB_SECTOR = d.disk SB_SECTOR → FlushEnds s d (.error e, { s with seq := q }, d')
  | late (e : MemErr) (q : Region → BitVec 64) (d' : Dev Sector) :
      d'.disk SB_SECTOR = d.disk SB_SECTOR ∨ d'.disk SB_SECTOR = s.nextSuperblock →
      FlushEnds s d (.error e, { s with seq := q }.foldStaged, d')
  | done (q : Region → BitVec 64) (d' : Dev Sector) : d'.disk SB_SECTOR = s.nextSuperblock →
      FlushEnds s d (.ok (), { { s with seq := q }.foldStaged with gen := s.gen + 1 }, d')

theorem flush_ends (s : VirtioBlkStore) (d : Dev Sector) : FlushEnds s d (s.flush d) := by
  obtain ⟨q, hs, hsb⟩ := writeStaged_frame regions s d
  rw [VirtioBlkStore.flush]
  split
  · next e s' d' hw =>
      rw [hw] at hs hsb
      cases hs
      exact .early e q d' hsb
  · next s' d' hw =>
      rw [hw] at hs hsb
      cases hs
      obtain ⟨d₂, hdisk, ⟨hf, -⟩ | ⟨hf, -⟩⟩ := d'.flush_cases
      · have hold : d₂.disk SB_SECTOR = d.disk SB_SECTOR := by rw [hdisk]; exact hsb
        rw [hf]
        show FlushEnds s d ({ s with seq := q }.foldStaged.writeSuperblock (s.gen + 1) d₂)
        have hnew : ∀ d₃ : Dev Sector, d₃.disk = Function.update d₂.disk SB_SECTOR s.nextSuperblock →
            d₃.disk SB_SECTOR = s.nextSuperblock := by
          rintro d₃ h
          rw [h, Function.update_self]
        obtain ⟨d₃, ⟨hend, hdisk₃, -⟩ | ⟨hend, hdisk₃, -⟩ | ⟨hend, hdisk₃, -⟩⟩ :=
          { s with seq := q }.foldStaged.writeSuperblock_cases (s.gen + 1) d₂
        · rw [hend]
          exact .late .io q d₃ (.inl (by rw [hdisk₃]; exact hold))
        · rw [hend]
          exact .late .io q d₃ (.inr (hnew d₃ hdisk₃))
        · rw [hend]
          exact .done q d₃ (hnew d₃ hdisk₃)
      · rw [hf]
        exact .early .io q d₂ (by rw [hdisk]; exact hsb)

/-- The superblock on disk, and how far it is ahead of the store: the store's own, or
the next one of a flush that failed at its last barrier. -/
def Anchored (d : Dev Sector) (s : VirtioBlkStore) : Prop :=
  ∃ sb, superblockDecode (d.disk SB_SECTOR) = some sb ∧ (sb.gen = s.gen ∨ sb.gen = s.gen + 1)

theorem nextSuperblock_decodes (s : VirtioBlkStore) :
    ∃ sb, superblockDecode s.nextSuperblock = some sb ∧ sb.gen = s.gen + 1 :=
  ⟨_, superblockDecode_encode _ _ _, rfl⟩

/-- A mount starts the low half at zero, under the superblock it found or wrote. -/
theorem mount_zero {d d' : Dev Sector} {s : VirtioBlkStore} (h : mount d = (.ok s, d')) :
    s.appendsSinceMount = 0 ∧ (∀ r, s.staged r = []) ∧
      ∃ sb, superblockDecode (d'.disk SB_SECTOR) = some sb ∧ sb.gen = s.gen := by
  cases hsb : superblockDecode (d.disk SB_SECTOR) with
  | some sb =>
      obtain ⟨d₁, hro, hm | ⟨hm, -⟩⟩ := mount_scan hsb
      · rw [h] at hm
        cases hm
        exact ⟨rfl, fun _ => rfl, sb, by rw [hro.disk]; exact hsb, rfl⟩
      · rw [h] at hm
        cases hm
  | none =>
      obtain ⟨d₁, hro, hread | ⟨hread, -⟩⟩ := read_cases d SB_SECTOR
      · rw [mount, hread] at h
        dsimp only at h
        rw [hsb] at h
        obtain ⟨d₂, ⟨hend, -⟩ | ⟨hend, -⟩ | ⟨hend, hdisk, -⟩⟩ := empty.writeSuperblock_cases 0 d₁
        · rw [hend] at h
          cases h
        · rw [hend] at h
          cases h
        · rw [hend] at h
          cases h
          refine ⟨rfl, fun _ => rfl, ⟨SB_VERSION, 0, empty.logHead, empty.recordCount⟩, ?_, rfl⟩
          rw [hdisk, Function.update_self]
          exact superblockDecode_encode _ _ _
      · rw [mount, hread] at h
        cases h

/-- Where there is a superblock, a mount changes nothing on disk and adopts it. -/
theorem mount_known {d : Dev Sector} {sb : Superblock} (hsb : superblockDecode (d.disk SB_SECTOR) = some sb) :
    (mount d).2.disk = d.disk ∧ ∀ s, (mount d).1 = .ok s → s.gen = sb.gen := by
  obtain ⟨d', hro, hm | ⟨hm, -⟩⟩ := mount_scan hsb
  · rw [hm]
    refine ⟨hro.disk, ?_⟩
    rintro s ⟨⟩
    rfl
  · rw [hm]
    exact ⟨hro.disk, fun s h => by cases h⟩

namespace Rig

/-! ## What a step keeps -/

def Inv (w : Rig) : Prop := ∀ s, w.store = some s → Anchored w.dev s ∧ Counted s

theorem store_of_engine {w : Rig} {s : VirtioBlkStore} (h : w.engine = some s) : w.store = some s := by
  rw [engine] at h
  split at h
  · exact h
  · cases h

/-- What a flush leaves, however it ends. -/
theorem flush_inv {s : VirtioBlkStore} {d : Dev Sector} (ha : Anchored d s) (hc : Counted s) :
    Anchored (s.flush d).2.2 (s.flush d).2.1 ∧ Counted (s.flush d).2.1 := by
  have hfold : ∀ q, Counted { s with seq := q }.foldStaged := fun q =>
    foldStaged_counted (s := { s with seq := q }) ⟨hc.staged, hc.appends⟩
  have hnext := nextSuperblock_decodes s
  obtain ⟨sb, hsb, hgen⟩ := ha
  have hends := flush_ends s d
  generalize s.flush d = out at hends ⊢
  cases hends with
  | early e q d' hdisk => exact ⟨⟨sb, by rw [hdisk]; exact hsb, hgen⟩, ⟨hc.staged, hc.appends⟩⟩
  | late e q d' hdisk =>
      refine ⟨?_, hfold q⟩
      rcases hdisk with hdisk | hdisk
      · exact ⟨sb, by rw [hdisk]; exact hsb, hgen⟩
      · obtain ⟨sb', hsb', hgen'⟩ := hnext
        exact ⟨sb', by rw [hdisk]; exact hsb', .inr hgen'⟩
  | done q d' hdisk =>
      obtain ⟨sb', hsb', hgen'⟩ := hnext
      exact ⟨⟨sb', by rw [hdisk]; exact hsb', .inl hgen'⟩, ⟨(hfold q).staged, (hfold q).appends⟩⟩

theorem flush_halves (s : VirtioBlkStore) (d : Dev Sector) :
    (s.flush d).2.1.appendsSinceMount = s.appendsSinceMount ∧
      ((s.flush d).1 = .ok () → (s.flush d).2.1.gen = s.gen + 1) ∧
      ((s.flush d).1 ≠ .ok () → (s.flush d).2.1.gen = s.gen) := by
  have hends := flush_ends s d
  generalize s.flush d = out at hends ⊢
  cases hends with
  | early e q d' hdisk => exact ⟨rfl, nofun, fun _ => rfl⟩
  | late e q d' hdisk => exact ⟨rfl, nofun, fun _ => rfl⟩
  | done q d' hdisk => exact ⟨rfl, fun _ => rfl, fun h => absurd rfl h⟩

theorem step_inv (w : Rig) (op : Op) (h : Inv w) : Inv (w.step op) := by
  intro s' hs'
  cases op with
  | append r bytes =>
      rw [step] at hs' ⊢
      split at hs'
      · exact h s' hs'
      · next s he =>
          cases hs'
          obtain ⟨⟨sb, hsb, hgen⟩, hc⟩ := h s (store_of_engine he)
          exact ⟨⟨sb, hsb, by rw [(append_staging s r bytes).gen]; exact hgen⟩, append_counted hc r bytes⟩
  | flush =>
      rw [step] at hs' ⊢
      split at hs'
      · exact h s' hs'
      · next s he =>
          cases hs'
          obtain ⟨ha, hc⟩ := h s (store_of_engine he)
          exact flush_inv ha hc
  | remount =>
      rw [step] at hs' ⊢
      split at hs'
      · next e d hm =>
          obtain ⟨⟨sb, hsb, hgen⟩, hc⟩ := h s' hs'
          have hdisk := (mount_known hsb).1
          rw [hm] at hdisk
          exact ⟨⟨sb, by rw [hdisk]; exact hsb, hgen⟩, hc⟩
      · next s d hm =>
          cases hs'
          obtain ⟨hzero, hnil, sb, hsb, hgen⟩ := mount_zero hm
          refine ⟨⟨sb, hsb, .inl hgen⟩, ⟨fun r => .inl (hnil r), ?_⟩⟩
          rw [hzero]
          exact Nat.zero_le _

/-! ## When the epoch goes back -/

/-- The superblock on disk is the one of `s`. -/
def AtRest (d : Dev Sector) (s : VirtioBlkStore) : Prop :=
  (superblockDecode (d.disk SB_SECTOR)).map Superblock.gen = some s.gen

/-- A successful flush from the last generation before a wrap; or a successful mount that
forgets appends, or adopts across a wrap what a failed flush left. -/
def Regresses (w : Rig) : Op → Prop
  | .append _ _ => False
  | .flush => ∃ s, w.engine = some s ∧ (s.flush w.dev).1 = .ok () ∧ AtWrap s.gen
  | .remount => (∃ s', (mount w.dev).1 = .ok s') ∧ ∃ s, w.store = some s ∧
      (AtRest w.dev s ∧ s.appendsSinceMount ≠ 0 ∨ ¬ AtRest w.dev s ∧ AtWrap s.gen)

/-- The step does not lower the epoch last reported, and raises it if it is a flush that
succeeds. -/
def Advances (w : Rig) (op : Op) : Prop :=
  ∀ s, w.store = some s → ∃ s', (w.step op).store = some s' ∧ s.epoch ≤ s'.epoch ∧
    (op = .flush → w.Flushes → s.epoch < s'.epoch)

theorem append_advances {w : Rig} (h : Inv w) (r : Region) (bytes : List UInt8) :
    w.Advances (.append r bytes) := by
  intro s hs
  rw [step]
  split
  · exact ⟨s, hs, BitVec.le_refl _, nofun⟩
  · next s₀ he =>
      cases hs.symm.trans (store_of_engine he)
      refine ⟨_, rfl, ?_, nofun⟩
      have hc := (h s hs).2
      have hc' := append_counted hc r bytes
      refine (epoch_le_of_gen (append_staging s r bytes).gen (Nat.lt_trans hc.lt (by decide))
        (Nat.lt_trans hc'.lt (by decide))).mpr ?_
      rcases append_cases s r bytes with hsame | ⟨-, hnew⟩
      · rw [hsame]
      · have hlt := hc.lt
        rw [hnew]
        show _ ≤ (s.appendsSinceMount.toNat + 1) % 2 ^ 64
        rw [Nat.mod_eq_of_lt (by omega)]
        exact Nat.le_succ _

theorem flush_advances {w : Rig} : w.Advances .flush ↔ ¬ w.Regresses .flush := by
  cases he : w.engine with
  | none =>
      have hstep : w.step .flush = w := by rw [step, he]
      constructor
      · rintro - ⟨s, he', -⟩
        exact nomatch he.symm.trans he'
      · intro _ s hs
        refine ⟨s, by rw [hstep]; exact hs, BitVec.le_refl _, ?_⟩
        rintro - ⟨s', he', -⟩
        exact nomatch he.symm.trans he'
  | some s =>
      have hstep : (w.step .flush).store = some (s.flush w.dev).2.1 := by rw [step, he]
      obtain ⟨happ, hdone, hfail⟩ := flush_halves s w.dev
      constructor
      · rintro hadv ⟨s₁, he₁, hok, hwrap⟩
        cases he.symm.trans he₁
        obtain ⟨s', hs', hle, -⟩ := hadv s (store_of_engine he)
        cases hstep.symm.trans hs'
        exact (epoch_of_succ (hdone hok)).2 hwrap hle
      · intro hreg s₁ hs₁
        cases (store_of_engine he).symm.trans hs₁
        refine ⟨_, hstep, ?_⟩
        by_cases hok : (s.flush w.dev).1 = .ok ()
        · have hlt := (epoch_of_succ (hdone hok)).1 fun hwrap => hreg ⟨s, he, hok, hwrap⟩
          exact ⟨BitVec.le_of_lt hlt, fun _ _ => hlt⟩
        · have hsame : (s.flush w.dev).2.1.epoch = s.epoch := by rw [epoch, epoch, happ, hfail hok]
          refine ⟨by rw [hsame]; exact BitVec.le_refl _, ?_⟩
          rintro - ⟨s₂, he₂, hok₂⟩
          cases he.symm.trans he₂
          exact absurd hok₂ hok

/-- What a mount makes of the epoch of the store before it. -/
theorem mount_epoch {d d' : Dev Sector} {s s' : VirtioBlkStore} (ha : Anchored d s) (hc : Counted s)
    (hm : mount d = (.ok s', d')) : s.epoch ≤ s'.epoch ↔
      ¬ (AtRest d s ∧ s.appendsSinceMount ≠ 0 ∨ ¬ AtRest d s ∧ AtWrap s.gen) := by
  obtain ⟨sb, hsb, hgen⟩ := ha
  have hgen' : s'.gen = sb.gen := (mount_known hsb).2 s' (by rw [hm])
  have hzero : s'.appendsSinceMount = 0 := (mount_zero hm).1
  have hrest : AtRest d s ↔ sb.gen = s.gen := by
    rw [AtRest, hsb]
    exact Option.some_inj
  rcases hgen with hsame | hnext
  · rw [epoch_le_of_gen (hgen'.trans hsame) (Nat.lt_trans hc.lt (by decide)) (by rw [hzero]; decide), hzero]
    have hat := hrest.mpr hsame
    constructor
    · rintro hle (⟨-, hne⟩ | ⟨hnot, -⟩)
      · exact hne (BitVec.eq_of_toNat_eq (Nat.le_zero.mp hle))
      · exact hnot hat
    · intro hno
      have happ : s.appendsSinceMount = 0 := by
        by_contra hne
        exact hno (.inl ⟨hat, hne⟩)
      rw [happ]
  · have hnot : ¬ AtRest d s := fun hat => by
      have hself : s.gen + 1 = s.gen := hnext.symm.trans (hrest.mp hat)
      simp at hself
    obtain ⟨hup, hback⟩ := epoch_of_succ (hgen'.trans hnext)
    constructor
    · rintro hle (⟨hat, -⟩ | ⟨-, hwrap⟩)
      · exact hnot hat
      · exact hback hwrap hle
    · intro hno
      exact BitVec.le_of_lt (hup fun hwrap => hno (.inr ⟨hnot, hwrap⟩))

theorem remount_advances {w : Rig} (h : Inv w) : w.Advances .remount ↔ ¬ w.Regresses .remount := by
  cases hm : mount w.dev with
  | mk res d =>
      cases res with
      | error e =>
          have hstep : (w.step .remount).store = w.store := by rw [step, hm]
          constructor
          · rintro - ⟨⟨s', hs'⟩, -⟩
            rw [hm] at hs'
            cases hs'
          · intro _ s hs
            exact ⟨s, hstep.trans hs, BitVec.le_refl _, nofun⟩
      | ok s' =>
          have hstep : (w.step .remount).store = some s' := by rw [step, hm]
          constructor
          · rintro hadv ⟨-, s, hs, hbad⟩
            obtain ⟨s₁, hs₁, hle, -⟩ := hadv s hs
            cases hstep.symm.trans hs₁
            exact (mount_epoch (h s hs).1 (h s hs).2 hm).mp hle hbad
          · intro hreg s hs
            refine ⟨s', hstep, (mount_epoch (h s hs).1 (h s hs).2 hm).mpr ?_, nofun⟩
            intro hbad
            exact hreg ⟨⟨s', by rw [hm]⟩, s, hs, hbad⟩

theorem step_advances {w : Rig} (h : Inv w) (op : Op) : w.Advances op ↔ ¬ w.Regresses op := by
  cases op with
  | append r bytes => exact ⟨fun _ => not_false, fun _ => append_advances h r bytes⟩
  | flush => exact flush_advances
  | remount => exact remount_advances h

/-! ## Whole runs -/

/-- The epoch reported never decreases along the run, and increases across each flush
that succeeds. -/
def Fresh (w : Rig) (ops : List Op) : Prop :=
  (∀ pre mid post e e', ops = pre ++ (mid ++ post) → (exec step w pre).reported = some e →
    (exec step w (pre ++ mid)).reported = some e' → e ≤ e') ∧
  ∀ pre post e e', ops = pre ++ .flush :: post → (exec step w pre).Flushes →
    (exec step w pre).reported = some e → (exec step w (pre ++ [.flush])).reported = some e' → e < e'

theorem step_store {w : Rig} {s : VirtioBlkStore} (hs : w.store = some s) (op : Op) :
    ∃ s', (w.step op).store = some s' := by
  cases op with
  | append r bytes =>
      rw [step]
      split
      · exact ⟨s, hs⟩
      · exact ⟨_, rfl⟩
  | flush =>
      rw [step]
      split
      · exact ⟨s, hs⟩
      · exact ⟨_, rfl⟩
  | remount =>
      rw [step]
      split
      · exact ⟨s, hs⟩
      · exact ⟨_, rfl⟩

theorem cold_inv (d : Dev Sector) : Inv (cold d) := nofun

/-- A run is fresh exactly when each of its steps advances. -/
theorem fresh_iff_advances {w : Rig} (ops : List Op) :
    Fresh w ops ↔ Guarded step Advances w ops := by
  constructor
  · rintro ⟨hmono, hstrict⟩
    rw [guarded_iff]
    rintro pre op post rfl s hs
    obtain ⟨s', hs'⟩ := step_store hs op
    have hbefore : (exec step w pre).reported = some s.epoch := by rw [reported, hs]; rfl
    have hafter : (exec step w (pre ++ [op])).reported = some s'.epoch := by
      rw [exec_append, exec_cons, exec_nil, reported, hs']
      rfl
    refine ⟨s', hs', hmono pre [op] post _ _ rfl hbefore hafter, ?_⟩
    rintro rfl hfl
    exact hstrict pre post _ _ rfl hfl hbefore hafter
  · intro hadv
    refine ⟨?_, ?_⟩
    · rintro pre mid post e e' rfl he he'
      obtain ⟨-, hmid⟩ := guarded_append.mp hadv
      -- from the state `pre` reaches, no step of `mid` goes below `e`
      have hkeep : ∃ e₁, (exec step (exec step w pre) mid).reported = some e₁ ∧ e ≤ e₁ := by
        refine exec_guarded (G := Advances) (P := fun v => ∃ e₁, v.reported = some e₁ ∧ e ≤ e₁) ?_ mid
          (guarded_append.mp hmid).1 ⟨e, he, BitVec.le_refl e⟩
        rintro v op hop ⟨e₁, he₁, hle⟩
        obtain ⟨s, hs, rfl⟩ := Option.map_eq_some_iff.mp he₁
        obtain ⟨s', hs', hle', -⟩ := hop s hs
        exact ⟨s'.epoch, by rw [reported, hs']; rfl, BitVec.le_trans hle hle'⟩
      obtain ⟨e₁, he₁, hle⟩ := hkeep
      rw [exec_append, he₁] at he'
      cases he'
      exact hle
    · intro pre post e e' hops hfl he he'
      obtain ⟨s, hs, rfl⟩ := Option.map_eq_some_iff.mp he
      obtain ⟨s', hs', -, hlt⟩ := guarded_iff.mp hadv pre .flush post hops s hs
      rw [exec_append, exec_cons, exec_nil, reported, hs'] at he'
      cases he'
      exact hlt rfl hfl

/-- From any device, whatever it holds and whichever requests fail: a run is fresh
exactly when none of its steps regresses. -/
theorem epoch_fresh_iff (d : Dev Sector) (ops : List Op) :
    Fresh (cold d) ops ↔ Guarded step (fun w op => ¬ w.Regresses op) (cold d) ops := by
  rw [fresh_iff_advances, guarded_iff, guarded_iff]
  have hinv : ∀ pre, Inv (exec step (cold d) pre) := fun pre => exec_inv step_inv pre (cold_inv d)
  constructor
  · intro h pre op post hops
    exact (step_advances (hinv pre) op).mp (h pre op post hops)
  · intro h pre op post hops
    exact (step_advances (hinv pre) op).mpr (h pre op post hops)

/-- One record, flushed, and a reboot: the generation comes back, the count does not. -/
theorem reboot_lowers_epoch :
    ¬ Fresh (cold (Dev.healthy formatted)) [.remount, .append .episodic [1], .flush, .remount] := by
  rintro ⟨hmono, -⟩
  have hflushed : (exec step (cold (Dev.healthy formatted))
      [.remount, .append .episodic [1], .flush]).reported = some 0x100000001#64 := by decide +kernel
  have hrebooted : (exec step (cold (Dev.healthy formatted))
      [.remount, .append .episodic [1], .flush, .remount]).reported = some 0x100000000#64 := by
    decide +kernel
  have hle := hmono [.remount, .append .episodic [1], .flush] [.remount] [] _ _ rfl hflushed hrebooted
  exact absurd hle (by decide)

end Rig

end Yuva.Store
