/-
# `Yuva.Store.Faults` — a request that fails loses nothing that was accepted

Any number of flushes may fail before one returns: at a frame, at the barrier behind the
frames, at the superblock, or at the last barrier.  A write that fails leaves the old sector
or the new one.  A `Bench` is a mounted engine on its device.

    early   up to the first barrier: the payloads are still staged, and only sectors that no
            committed frame is in were written; a retry writes the same places again,
            under higher numbers
    late    past it: every frame is in its place and folded; a retry writes the superblock

`Holds` is what both leave: the frames of the committed payloads are on the disk, in order,
under numbers below the next one.  What a retry does use up is numbers, and the counter
wraps: a frame numbered from zero again ends every later replay.  `Wraps` is a flush that
may take a counter that far, and along runs without one nothing accepted is lost
(`errors_transparent`).
-/
import Yuva.Lib.Run
import Yuva.Store.Durable

namespace Yuva.Store

open Yuva.Bytes Yuva.Volatile Yuva.Run VirtioBlkStore

/-! ## The payloads a replay takes -/

/-- The payload of frame `i`, if it decodes. -/
def payloadAt (disk : Disk Sector) (r : Region) (i : Nat) : Option (List UInt8) :=
  match recordSector r (i * SECTOR_SIZE) with
  | none => none
  | some x => (recordFrameDecode (disk x)).map fun f => slice (disk x).val f.2 f.1.len.toNat

/-- The payloads of `n` frames from `i` on. -/
def payloads (disk : Disk Sector) (r : Region) (i n : Nat) : List (List UInt8) :=
  (List.range' i n).filterMap (payloadAt disk r)

/-- The payloads a mount of the disk replays. -/
def replays (disk : Disk Sector) (r : Region) : List (List UInt8) :=
  payloads disk r 0 (scan disk r (committedCount disk r) 0 none).frames

theorem payloads_succ {disk : Disk Sector} {r : Region} {i : Nat} {p : List UInt8}
    (h : payloadAt disk r i = some p) (n : Nat) :
    payloads disk r i (n + 1) = p :: payloads disk r (i + 1) n := by
  rw [payloads, List.range'_succ, List.filterMap_cons_some h]
  rfl

theorem payloads_add (disk : Disk Sector) (r : Region) (i m n : Nat) :
    payloads disk r i (m + n) = payloads disk r i m ++ payloads disk r (i + m) n := by
  rw [payloads, ← List.range'_append_1, List.filterMap_append]
  rfl

/-- A scan reads the payloads of the frames it takes. -/
theorem scan_payloads (disk : Disk Sector) (r : Region) (n : Nat) : ∀ (i : Nat) (last : Option (BitVec 64)),
    (scan disk r n i last).stream = (payloads disk r i (scan disk r n i last).frames).flatten ∧
      (payloads disk r i (scan disk r n i last).frames).length = (scan disk r n i last).frames := by
  induction n with
  | zero => intro i last; exact ⟨rfl, rfl⟩
  | succ n ih =>
      intro i last
      rcases scan_succ disk r i last with hstop | ⟨x, h, off, hx, hdec, -, hgo⟩
      · rw [hstop n]
        exact ⟨rfl, rfl⟩
      · have hp : payloadAt disk r i = some (slice (disk x).val off h.len.toNat) := by
          rw [payloadAt, hx]
          dsimp only
          rw [hdec]
          rfl
        obtain ⟨hstream, hlen⟩ := ih (i + 1) (some h.seq)
        rw [hgo n]
        dsimp only
        rw [payloads_succ hp, List.flatten_cons, List.length_cons, ← hstream, hlen]
        exact ⟨rfl, rfl⟩

/-! ## Frames in their places -/

theorem Framed.payloads {disk : Disk Sector} {r : Region} {ps : List (List UInt8)} {idx : Nat}
    {q : BitVec 64} (h : Framed disk r ps idx q) : payloads disk r idx ps.length = ps := by
  induction ps generalizing idx q with
  | nil => rfl
  | cons p ps ih =>
      obtain ⟨x, hd, hx, hdec, -, hpay⟩ := h.head
      have hp : payloadAt disk r idx = some p := by
        rw [payloadAt, hx]
        dsimp only
        rw [hdec, ← hpay]
        rfl
      rw [List.length_cons, payloads_succ hp, ih h.tail]

/-- A scan of frames whose numbers do not wrap ends below the next number. -/
theorem Framed.below {disk : Disk Sector} {r : Region} {ps : List (List UInt8)} {idx : Nat}
    {q : BitVec 64} {last : Option (BitVec 64)} (h : Framed disk r ps idx q)
    (hwrap : q.toNat + ps.length < 2 ^ 64) (hlast : Below last q) :
    Below (scan disk r ps.length idx last).last (q + BitVec.ofNat 64 ps.length) := by
  induction ps generalizing idx q last with
  | nil =>
      rw [List.length_nil, BitVec.add_zero]
      exact hlast
  | cons p ps ih =>
      obtain ⟨x, hd, hx, hdec, hseq, -⟩ := h.head
      rw [List.length_cons] at hwrap ⊢
      have hnext : (q + 1).toNat = q.toNat + 1 := by
        rw [BitVec.toNat_add]
        exact Nat.mod_eq_of_lt (by simp; omega)
      have hbelow : Below (some hd.seq) (q + 1) := by
        rintro p' hp'
        cases hp'
        rw [hnext, hseq]
        omega
      have hst : staleSeq last hd.seq = false := by
        rw [hseq]
        exact staleSeq_of_below hlast
      have hrest := ih h.tail (by omega) hbelow
      have hsum : q + 1 + BitVec.ofNat 64 ps.length = q + BitVec.ofNat 64 (ps.length + 1) := by
        rw [BitVec.ofNat_add, BitVec.add_comm (BitVec.ofNat 64 ps.length), ← BitVec.add_assoc]
        rfl
      rw [hsum] at hrest
      simp only [scan, hx, hdec, hst]
      exact hrest

/-! ## How a flush ends -/

/-- The engine on its device. -/
structure Bench where
  store : VirtioBlkStore
  dev : Dev Sector

namespace VirtioBlkStore

/-- Every staged payload is framed and folded. -/
def written (s : VirtioBlkStore) : VirtioBlkStore :=
  { s with seq := fun r => s.seq r + BitVec.ofNat 64 (s.staged r).length }.foldStaged

/-- Some of the staged payloads have used up their numbers. -/
def Advanced (s : VirtioBlkStore) (q : Region → BitVec 64) : Prop :=
  ∀ r, ∃ k, k ≤ (s.staged r).length ∧ q r = s.seq r + BitVec.ofNat 64 k

theorem writeFrames_moves (r : Region) : ∀ (ps : List (List UInt8)) (idx : Nat) (q : BitVec 64) (d : Dev Sector),
    (∃ k, k ≤ ps.length ∧ (writeFrames r ps idx q d).2.1 = q + BitVec.ofNat 64 k) ∧
      ∀ x, (∀ sec, Req.write x sec ∉ frameWrites r ps idx q) →
        (writeFrames r ps idx q d).2.2.disk x = d.disk x := by
  intro ps
  induction ps with
  | nil => intro idx q d; exact ⟨⟨0, Nat.le_refl 0, (BitVec.add_zero q).symm⟩, fun _ _ => rfl⟩
  | cons p ps ih =>
      intro idx q d
      have hstay : ∃ k, k ≤ (p :: ps).length ∧ q = q + BitVec.ofNat 64 k :=
        ⟨0, Nat.zero_le _, (BitVec.add_zero q).symm⟩
      rw [writeFrames, frameWrites]
      cases hs : recordSector r (idx * SECTOR_SIZE) with
      | none => exact ⟨hstay, fun _ _ => rfl⟩
      | some sector =>
          cases he : recordFrameEncode (regionTag r) q p with
          | none => exact ⟨hstay, fun _ _ => rfl⟩
          | some sec =>
              dsimp only
              have hother : ∀ x, (∀ sec', Req.write x sec' ∉
                  Req.write sector sec :: frameWrites r ps (idx + 1) (q + 1)) →
                  (d.write sector sec).2.disk x = d.disk x := by
                intro x hx
                refine d.write_untouched (fun heq => hx sec ?_) sec
                rw [heq]
                exact List.mem_cons_self
              cases hw : d.write sector sec with
              | mk ok d' =>
                  rw [hw] at hother
                  cases ok with
                  | false => exact ⟨hstay, hother⟩
                  | true =>
                      obtain ⟨⟨k, hk, hq⟩, hrest⟩ := ih (idx + 1) (q + 1) d'
                      refine ⟨⟨k + 1, Nat.succ_le_succ hk, ?_⟩, fun x hx => ?_⟩
                      · dsimp only
                        rw [hq, BitVec.ofNat_add, BitVec.add_comm (BitVec.ofNat 64 k), ← BitVec.add_assoc]
                        rfl
                      · exact (hrest x fun sec' hmem => hx sec' (List.mem_cons_of_mem _ hmem)).trans
                          (hother x hx)

/-- Phase 1 uses up numbers and writes its own sectors. -/
theorem writeStaged_moves : ∀ (rs : List Region) (s : VirtioBlkStore) (d : Dev Sector), rs.Nodup →
    ∃ q, (s.writeStaged rs d).2.1 = { s with seq := q } ∧ (∀ r, r ∉ rs → q r = s.seq r) ∧ s.Advanced q ∧
      ((s.writeStaged rs d).1 = .ok () → ∀ r ∈ rs, q r = s.seq r + BitVec.ofNat 64 (s.staged r).length) ∧
      ∀ x, (∀ sec, Req.write x sec ∉ s.stagedWrites rs) → (s.writeStaged rs d).2.2.disk x = d.disk x := by
  intro rs
  induction rs with
  | nil =>
      intro s d _
      refine ⟨s.seq, rfl, fun _ _ => rfl, fun r => ⟨0, Nat.zero_le _, (BitVec.add_zero _).symm⟩, ?_,
        fun _ _ => rfl⟩
      exact fun _ r hr => absurd hr List.not_mem_nil
  | cons r rs ih =>
      intro s d hnodup
      obtain ⟨hr, hnodup⟩ := List.nodup_cons.mp hnodup
      obtain ⟨⟨k, hk, hq⟩, hmoved⟩ :=
        writeFrames_moves r (s.staged r) (s.recordCount r).toNat (s.seq r) d
      obtain ⟨res, q, d', tr, hrun, -, -, hok⟩ :=
        writeFrames_trace r (s.staged r) (s.recordCount r).toNat (s.seq r) d
      rw [hrun] at hq hmoved
      dsimp only at hq hmoved
      have hmoved' : ∀ x, (∀ sec, Req.write x sec ∉ s.stagedWrites (r :: rs)) → d'.disk x = d.disk x :=
        fun x hx => hmoved x fun sec hmem => hx sec (List.mem_append_left _ hmem)
      rw [writeStaged, hrun]
      cases res with
      | error e =>
          refine ⟨Function.update s.seq r q, rfl, fun r' hr' => ?_, fun r' => ?_, fun h => (by cases h), hmoved'⟩
          · have hne : r' ≠ r := fun heq => hr' (heq ▸ List.mem_cons_self)
            exact Function.update_of_ne hne _ _
          · rw [Function.update_apply]
            split
            · next heq => exact ⟨k, heq ▸ hk, heq ▸ hq⟩
            · exact ⟨0, Nat.zero_le _, (BitVec.add_zero _).symm⟩
      | ok u =>
          obtain ⟨q', hs', hkeep, hadv, hfull, hrest⟩ := ih { s with seq := Function.update s.seq r q } d' hnodup
          -- the other regions do not see the number of `r`
          have hsame : stagedWrites { s with seq := Function.update s.seq r q } rs = s.stagedWrites rs := by
            refine List.flatMap_congr fun r' hr' => ?_
            have hne : r' ≠ r := fun heq => hr (heq ▸ hr')
            simp [Function.update_of_ne hne]
          rw [hsame] at hrest
          have hself : q' r = q := (hkeep r hr).trans (Function.update_self r q s.seq)
          refine ⟨q', hs', fun r' hr' => ?_, fun r' => ?_, fun hres r' hr' => ?_, fun x hx => ?_⟩
          · obtain ⟨hne, hr'⟩ := not_or.mp fun h => hr' (List.mem_cons.mpr h)
            exact (hkeep r' hr').trans (Function.update_of_ne hne _ _)
          · by_cases heq : r' = r
            · exact ⟨k, heq ▸ hk, by rw [heq, hself, hq]⟩
            · obtain ⟨k', hk', hq'⟩ := hadv r'
              refine ⟨k', hk', hq'.trans ?_⟩
              dsimp only
              rw [Function.update_of_ne heq]
          · rcases List.mem_cons.mp hr' with heq | hmem
            · rw [heq, hself]
              exact (hok rfl).2.2
            · have hne : r' ≠ r := fun heq => hr (heq ▸ hmem)
              rw [hfull hres r' hmem]
              dsimp only
              rw [Function.update_of_ne hne]
          · exact (hrest x fun sec hmem => hx sec (List.mem_append_right _ hmem)).trans (hmoved' x hx)

/-- What a flush does past the fold: the superblock is on the disk, or the flush has failed; and
it was issued. -/
theorem writeSuperblock_ends (s : VirtioBlkStore) (gen : BitVec 64) (d : Dev Sector) :
    ∃ res g d' tr, s.writeSuperblock gen d = (res, { s with gen := g }, d') ∧ Dev.Issued d d' tr ∧
      (∀ disk, settle disk tr =
        Function.update disk SB_SECTOR (superblockEncode gen s.logHead s.recordCount)) ∧
      (d'.disk = d.disk ∧ res ≠ .ok () ∨
        d'.disk = Function.update d.disk SB_SECTOR (superblockEncode gen s.logHead s.recordCount)) := by
  obtain ⟨d', ⟨hend, hdisk, hiss⟩ | ⟨hend, hdisk, hiss⟩ | ⟨hend, hdisk, hiss⟩⟩ :=
    s.writeSuperblock_cases gen d
  · exact ⟨_, s.gen, d', _, hend, hiss, fun _ => rfl, .inl ⟨hdisk, fun h => nomatch h⟩⟩
  · exact ⟨_, s.gen, d', _, hend, hiss, fun _ => rfl, .inr hdisk⟩
  · exact ⟨_, gen, d', _, hend, hiss, fun _ => rfl, .inr hdisk⟩

end VirtioBlkStore

namespace Bench

/-- A flush; `kept`: should a write fail, it is on the disk all the same. -/
def flushed (w : Bench) (kept : Bool) : Bench :=
  let (_, s, d) := w.store.flush w.dev
  ⟨s, if kept then { d with disk := settle w.dev.disk (d.issued.drop w.dev.issued.length) } else d⟩

/-- The disk with every staged frame in its place. -/
def framed (w : Bench) : Disk Sector := settle w.dev.disk (w.store.stagedWrites regions)

/-- How a flush ends, whatever failed and whichever sector that left. -/
inductive Flushed (w : Bench) : Except MemErr Unit → Bench → Prop
  | early (e : MemErr) (q : Region → BitVec 64) (d : Dev Sector) : w.store.Advanced q →
      (∀ x, ¬ w.store.Uncommitted x → d.disk x = w.dev.disk x) →
      Flushed w (.error e) ⟨{ w.store with seq := q }, d⟩
  | late (res : Except MemErr Unit) (gen : BitVec 64) (d : Dev Sector) :
      d.disk = w.framed ∧ res ≠ .ok () ∨
        d.disk = Function.update w.framed SB_SECTOR
          (superblockEncode (w.store.gen + 1) w.store.written.logHead w.store.written.recordCount) →
      Flushed w res ⟨{ w.store.written with gen := gen }, d⟩

/-- What `kept` chooses between. -/
theorem flushed_cases {w : Bench} {res : Except MemErr Unit} {s : VirtioBlkStore} {d : Dev Sector}
    {tr : List (Req Sector)} (hrun : w.store.flush w.dev = (res, s, d)) (hiss : Dev.Issued w.dev d tr)
    (kept : Bool) : ∃ d', w.flushed kept = ⟨s, d'⟩ ∧ (d'.disk = d.disk ∨ d'.disk = settle w.dev.disk tr) := by
  rw [flushed, hrun]
  dsimp only
  cases kept with
  | false => exact ⟨d, rfl, .inl rfl⟩
  | true =>
      refine ⟨_, rfl, .inr ?_⟩
      show settle w.dev.disk (d.issued.drop w.dev.issued.length) = _
      rw [hiss.issued, List.drop_left]

theorem settle_unwritten {s : VirtioBlkStore} {tr : List (Req Sector)} (h : tr <+: s.stagedWrites regions)
    (disk : Disk Sector) {x : Nat} (hx : ¬ s.Uncommitted x) : settle disk tr x = disk x :=
  settle_untouched disk tr fun _ hmem => hx (stagedWrites_fresh (h.subset hmem))

theorem flush_ends (w : Bench) (kept : Bool) : Flushed w (w.store.flush w.dev).1 (w.flushed kept) := by
  obtain ⟨q, hs₁, -, hadv, hfull, hmoved⟩ := writeStaged_moves regions w.store w.dev (by decide)
  obtain ⟨res, s₁, d₁, tr, hrun, -, hiss, hpre, hres⟩ :=
    writeStaged_trace regions w.store w.dev (by decide)
  rw [hrun] at hs₁ hfull hmoved
  dsimp only at hs₁ hfull hmoved
  subst hs₁
  have hfresh : ∀ x, ¬ w.store.Uncommitted x → d₁.disk x = w.dev.disk x :=
    fun x hx => hmoved x fun sec hmem => hx (stagedWrites_fresh hmem)
  cases res with
  | error e =>
      have hflush : w.store.flush w.dev = (.error e, { w.store with seq := q }, d₁) := by
        simp only [VirtioBlkStore.flush, hrun]
      obtain ⟨d', hd', hdisk⟩ := flushed_cases hflush hiss kept
      rw [hd', hflush]
      refine .early e q d' hadv fun x hx => ?_
      rcases hdisk with hdisk | hdisk
      · rw [hdisk, hfresh x hx]
      · rw [hdisk, settle_unwritten hpre _ hx]
  | ok u =>
      obtain ⟨rfl, hdisk₁⟩ := hres rfl
      have hnumbers : q = fun r => w.store.seq r + BitVec.ofNat 64 (w.store.staged r).length :=
        funext fun r => hfull rfl r (mem_regions r)
      obtain ⟨d₂, hdisk₂, ⟨hbar, hiss₂⟩ | ⟨hbar, hiss₂⟩⟩ := d₁.flush_cases
      · have hbase : d₂.disk = w.framed := hdisk₂.trans hdisk₁
        subst hnumbers
        have hsuper : w.store.flush w.dev = w.store.written.writeSuperblock (w.store.gen + 1) d₂ := by
          simp only [VirtioBlkStore.flush, hrun, hbar]
          rfl
        obtain ⟨res, gen, d₃, tr', hend, hiss₃, hsettle, hdisk₃⟩ :=
          w.store.written.writeSuperblock_ends (w.store.gen + 1) d₂
        obtain ⟨d', hd', hdisk⟩ := flushed_cases (hsuper.trans hend) (hiss.trans (hiss₂.trans hiss₃)) kept
        rw [hd', hsuper, hend]
        refine .late _ _ d' ?_
        rcases hdisk with hdisk | hdisk
        · rw [hdisk, ← hbase]
          exact hdisk₃
        · refine .inr ?_
          rw [hdisk, settle_append]
          exact hsettle _
      · have hflush : w.store.flush w.dev = (.error .io, { w.store with seq := q }, d₂) := by
          simp only [VirtioBlkStore.flush, hrun, hbar]
        obtain ⟨d', hd', hdisk⟩ := flushed_cases hflush (hiss.trans hiss₂) kept
        rw [hd', hflush]
        refine .early .io q d' hadv fun x hx => ?_
        rcases hdisk with hdisk | hdisk
        · rw [hdisk, hdisk₂, hfresh x hx]
        · rw [hdisk, List.append_nil, settle_unwritten (List.prefix_refl _) _ hx]

/-! ## What every flush leaves -/

/-- The frames of the committed payloads are on the disk, in order and under numbers below the
next one. -/
structure Holds (disk : Disk Sector) (s : VirtioBlkStore) (r : Region) (ps : List (List UInt8)) : Prop where
  count : (s.recordCount r).toNat = ps.length
  frames : (scan disk r ps.length 0 none).frames = ps.length
  payloads : payloads disk r 0 ps.length = ps
  below : Below (scan disk r ps.length 0 none).last (s.seq r)
  image : s.image r = ps.flatten
  fits : s.Fits r

variable {disk disk' : Disk Sector} {s s' : VirtioBlkStore} {r : Region} {ps : List (List UInt8)}

theorem payloads_congr {i n : Nat} (h : ∀ j x, i ≤ j → j < i + n → recordSector r (j * SECTOR_SIZE) = some x →
    disk' x = disk x) : Store.payloads disk' r i n = Store.payloads disk r i n := by
  refine List.filterMap_congr fun j hj => ?_
  obtain ⟨k, hk, rfl⟩ := List.mem_range'.mp hj
  rw [payloadAt, payloadAt]
  cases hx : recordSector r ((i + 1 * k) * SECTOR_SIZE) with
  | none => rfl
  | some x =>
      dsimp only
      rw [h (i + 1 * k) x (by omega) (by omega) hx]

/-- The committed sectors say it all. -/
theorem Holds.same (h : Holds disk s r ps) (hsame : s.SameFrames disk disk') : Holds disk' s r ps := by
  have hagree : ∀ j x, 0 ≤ j → j < 0 + ps.length → recordSector r (j * SECTOR_SIZE) = some x → disk' x = disk x := by
    intro j x _ hj hx
    refine hsame x (recordSector_ne_sb hx) fun hu => hu.2 r j ?_ hx
    rw [h.count]
    omega
  have hscan : scan disk' r ps.length 0 none = scan disk r ps.length 0 none := scan_congr hagree
  refine { h with frames := ?_, payloads := ?_, below := ?_ }
  · rw [hscan, h.frames]
  · rw [payloads_congr hagree, h.payloads]
  · rw [hscan]
    exact h.below

/-- A retry starts from a higher number. -/
theorem Holds.advance (h : Holds disk s r ps) {q : Region → BitVec 64}
    (hwrap : (s.seq r).toNat + (s.staged r).length < 2 ^ 64) (hadv : s.Advanced q) :
    Holds disk { s with seq := q } r ps := by
  obtain ⟨k, hk, hq⟩ := hadv r
  refine ⟨h.count, h.frames, h.payloads, fun p hp => ?_, h.image, h.fits⟩
  have hlt := h.below p hp
  have hnum : (q r).toNat = (s.seq r).toNat + k := by
    rw [hq, BitVec.toNat_add, BitVec.toNat_ofNat]
    omega
  show p.toNat < (q r).toNat
  omega

/-- Framed and folded, the staged payloads are committed ones. -/
theorem Holds.fold (h : Holds disk s r ps) (hwrap : (s.seq r).toNat + (s.staged r).length < 2 ^ 64)
    (hsame : s.SameFrames disk disk') (hframed : Framed disk' r (s.staged r) (s.recordCount r).toNat (s.seq r)) :
    Holds disk' s.written r (ps ++ s.staged r) := by
  have hold := h.same hsame
  rw [h.count] at hframed
  have hcount : (s.written.recordCount r).toNat = (ps ++ s.staged r).length := by
    rw [List.length_append, ← h.count]
    exact toNat_folded_count h.fits
  have hframes := scan_framed hframed (Nat.le_of_lt hwrap) hold.below
  have hscan := scan_add (s.staged r).length hold.frames
  rw [Nat.zero_add] at hscan
  refine ⟨hcount, ?_, ?_, ?_, ?_, ⟨?_, fun p hp => absurd hp List.not_mem_nil⟩⟩
  · rw [List.length_append, hscan, hframes.1]
  · rw [List.length_append, payloads_add, hold.payloads, Nat.zero_add, hframed.payloads]
  · rw [List.length_append, hscan]
    exact hframed.below hwrap hold.below
  · show s.image r ++ s.stagedBytes r = _
    rw [h.image, List.flatten_append]
    rfl
  · have hfit := h.fits.1
    rw [hcount, List.length_append, ← h.count]
    exact hfit

/-- Appending stages; what is committed stays. -/
theorem Holds.staging (h : Holds disk s r ps) (hst : Staging s s') (hfit : s'.Fits r) :
    Holds disk s' r ps where
  count := by rw [hst.recordCount, h.count]
  frames := h.frames
  payloads := h.payloads
  below := by
    rw [hst.seq]
    exact h.below
  image := by rw [hst.image, h.image]
  fits := hfit

theorem sameFrames_framed (w : Bench) : w.store.SameFrames w.dev.disk w.framed :=
  fun _ _ hu => settle_unwritten (List.prefix_refl _) _ hu

/-- Neither the committed frames nor the staged ones are in the superblock's sector. -/
theorem Holds.late {w : Bench} (h : Holds w.dev.disk w.store r ps)
    (hwrap : (w.store.seq r).toNat + (w.store.staged r).length < 2 ^ 64)
    (hdisk : ∀ x, x ≠ SB_SECTOR → disk x = w.framed x) :
    Holds disk w.store.written r (ps ++ w.store.staged r) := by
  refine h.fold hwrap (fun x hx hu => ?_) fun j p hp => ?_
  · rw [hdisk x hx]
    exact sameFrames_framed w x hx hu
  · obtain ⟨x, sec, hx, he, hat⟩ := framed_settle h.fits w.dev.disk j p hp
    exact ⟨x, sec, hx, he, (hdisk x (recordSector_ne_sb hx)).trans hat⟩

/-! ## Runs -/

/-- What the memory asks of the store. -/
inductive Call where
  | append (r : Region) (bytes : List UInt8)
  | readAt (r : Region) (off n : Nat)
  | flush (kept : Bool)

def step (w : Bench) : Call → Bench
  | .append r bytes => { w with store := (w.store.append r bytes).2 }
  | .readAt .. => w
  | .flush kept => w.flushed kept

/-- The payload, if the call appends one to the region and is answered `Ok`. -/
def accepts (w : Bench) (r : Region) : Call → List (List UInt8)
  | .append r' bytes => if r' = r ∧ (w.store.append r' bytes).1.isOk then [bytes] else []
  | _ => []

/-- The payloads a run appended to the region, in order. -/
def accepted (r : Region) : Bench → List Call → List (List UInt8)
  | _, [] => []
  | w, c :: cs => w.accepts r c ++ accepted r (w.step c) cs

/-- The flush takes a sequence number to its last value or past it. -/
def Wraps (w : Bench) : Call → Prop
  | .flush _ => ∃ r, 2 ^ 64 ≤ (w.store.seq r).toNat + (w.store.staged r).length
  | _ => False

/-- In each region these payloads were accepted: the first of them are committed, the others
staged. -/
def Keeps (w : Bench) (total : Region → List (List UInt8)) : Prop :=
  ∀ r, ∃ ps, Holds w.dev.disk w.store r ps ∧ ps ++ w.store.staged r = total r

theorem append_ends (s : VirtioBlkStore) (r : Region) (bytes : List UInt8) :
    (s.append r bytes).1.isOk = false ∧ (s.append r bytes).2 = s ∨
    (s.append r bytes).1.isOk = true ∧
      (s.append r bytes).2.staged = Function.update s.staged r (s.staged r ++ [bytes]) := by
  rw [append]
  split
  · exact .inl ⟨rfl, rfl⟩
  · split
    · exact .inl ⟨rfl, rfl⟩
    · exact .inr ⟨rfl, rfl⟩

theorem append_keeps {w : Bench} {total : Region → List (List UInt8)} (h : w.Keeps total) (r : Region)
    (bytes : List UInt8) :
    (w.step (.append r bytes)).Keeps fun r' => total r' ++ w.accepts r' (.append r bytes) := by
  have hst := append_staging w.store r bytes
  have hfits : ∀ r', w.store.Fits r' := fun r' => by
    obtain ⟨ps, hps, -⟩ := h r'
    exact hps.fits
  intro r'
  obtain ⟨ps, hps, htotal⟩ := h r'
  refine ⟨ps, hps.staging hst (hst.fits hfits r'), ?_⟩
  show ps ++ (w.store.append r bytes).2.staged r' = total r' ++ w.accepts r' (.append r bytes)
  rw [accepts, ← htotal]
  rcases append_ends w.store r bytes with ⟨hok, hsame⟩ | ⟨hok, hstaged⟩
  · rw [hsame, hok, if_neg fun hno => Bool.false_ne_true hno.2, List.append_nil]
  · rw [hstaged, hok, Function.update_apply]
    by_cases hr : r' = r
    · rw [if_pos hr, if_pos ⟨hr.symm, rfl⟩, hr, List.append_assoc]
    · rw [if_neg hr, if_neg fun hno => hr hno.1.symm, List.append_nil]

theorem flush_keeps {w : Bench} {total : Region → List (List UInt8)} (h : w.Keeps total) {kept : Bool}
    (hwrap : ¬ w.Wraps (.flush kept)) : (w.flushed kept).Keeps total := by
  have hroom : ∀ r, (w.store.seq r).toNat + (w.store.staged r).length < 2 ^ 64 :=
    fun r => Nat.lt_of_not_le fun hle => hwrap ⟨r, hle⟩
  have hends := w.flush_ends kept
  generalize (w.store.flush w.dev).1 = res at hends
  generalize w.flushed kept = w' at hends ⊢
  intro r
  obtain ⟨ps, hps, htotal⟩ := h r
  cases hends with
  | early e q d hadv hdisk =>
      exact ⟨ps, (hps.same fun x _ hu => hdisk x hu).advance (hroom r) hadv, htotal⟩
  | late _ gen d hdisk =>
      have hlog : ∀ x, x ≠ SB_SECTOR → d.disk x = w.framed x := by
        intro x hx
        rcases hdisk with ⟨hdisk, -⟩ | hdisk
        · rw [hdisk]
        · rw [hdisk, Function.update_of_ne hx]
      obtain ⟨hcount, hframes, hpayloads, hbelow, himage, hfits⟩ := hps.late (hroom r) hlog
      exact ⟨ps ++ w.store.staged r, ⟨hcount, hframes, hpayloads, hbelow, himage, hfits⟩,
        (List.append_nil _).trans htotal⟩

/-- Whatever fails, a call loses nothing that was accepted. -/
theorem step_keeps {w : Bench} {total : Region → List (List UInt8)} (h : w.Keeps total) {c : Call}
    (hwrap : ¬ w.Wraps c) : (w.step c).Keeps fun r => total r ++ w.accepts r c := by
  cases c with
  | append r bytes => exact append_keeps h r bytes
  | readAt =>
      simp only [accepts, List.append_nil]
      exact h
  | flush kept =>
      simp only [accepts, List.append_nil]
      exact flush_keeps h hwrap

theorem run_keeps (cs : List Call) {w : Bench} {total : Region → List (List UInt8)} (h : w.Keeps total)
    (hg : Guarded step (fun w c => ¬ w.Wraps c) w cs) :
    (exec step w cs).Keeps fun r => total r ++ accepted r w cs := by
  induction cs generalizing w total with
  | nil =>
      simp only [accepted, List.append_nil]
      exact h
  | cons c cs ih =>
      simp only [accepted, ← List.append_assoc]
      exact ih (step_keeps h hg.1) hg.2

theorem Keeps.stream {w : Bench} {total : Region → List (List UInt8)} (h : w.Keeps total) (r : Region) :
    w.store.stream r = (total r).flatten := by
  obtain ⟨ps, hps, htotal⟩ := h r
  rw [VirtioBlkStore.stream, stagedBytes, hps.image, ← List.flatten_append, htotal]

/-! ## The remount -/

/-- Every committed frame of every log decodes, in ascending numbers, the last of which can be
followed. -/
structure WellFormed (disk : Disk Sector) : Prop where
  intact : ∀ r, Intact disk r (committedCount disk r) 0 none

/-- A mounted store whose logs were intact keeps what it replayed. -/
theorem mount_keeps {d d₁ : Dev Sector} {s : VirtioBlkStore} (hm : mount d = (.ok s, d₁))
    (hwf : WellFormed d.disk) : Keeps ⟨s, d₁⟩ (replays d.disk) := by
  have hmount := mount_ok hm
  intro r
  obtain ⟨hframes, hlast⟩ := (intact_iff (by simp)).mp (hwf.intact r)
  obtain ⟨hstream, hlen⟩ := scan_payloads d.disk r (committedCount d.disk r) 0 none
  have hcount : (replays d.disk r).length = committedCount d.disk r := hlen.trans hframes
  have hrange : committedCount d.disk r ≤ (regionExtent r).2 := by
    rcases Nat.eq_zero_or_pos (committedCount d.disk r) with hzero | hpos
    · rw [hzero]
      exact Nat.zero_le _
    · have hle := scan_complete_le hframes hpos
      rwa [Nat.zero_add] at hle
  have hholds : Holds d.disk s r (replays d.disk r) := by
    refine ⟨?_, ?_, ?_, ?_, ?_, ⟨?_, ?_⟩⟩
    · rw [hcount, hmount.count]
    · rw [hcount, hframes]
    · rw [hcount]
      show payloads d.disk r 0 _ = payloads d.disk r 0 _
      rw [hframes]
    · rw [hcount, hmount.seq]
      intro p hp
      rw [hp] at hlast ⊢
      have hne : p.toNat ≠ 2 ^ 64 - 1 := fun heq =>
        hlast (congrArg some (BitVec.eq_of_toNat_eq (by rw [heq, BitVec.toNat_allOnes])))
      have hlt := p.isLt
      show p.toNat < (p + 1#64).toNat
      rw [BitVec.toNat_add, BitVec.toNat_ofNat]
      omega
    · rw [hmount.image, hstream]
      rfl
    · rw [hmount.count, hmount.staged]
      exact hrange
    · rw [hmount.staged]
      exact fun p hp => absurd hp List.not_mem_nil
  refine ⟨replays d.disk r, hholds.same fun x hx _ => hmount.log x hx, ?_⟩
  show replays d.disk r ++ s.staged r = _
  rw [hmount.staged, List.append_nil]

/-- Reads return the byte ranges of these payloads, one after the other. -/
def Serves (s : VirtioBlkStore) (total : Region → List (List UInt8)) : Prop :=
  ∀ r off n, s.readAt r off n =
    if off > (total r).flatten.length then .error .notFound
    else .ok (((total r).flatten.drop off).take n)

/-- Mounting this disk replays these payloads and serves them, unless a read fails. -/
def Remounts (disk : Disk Sector) (total : Region → List (List UInt8)) : Prop :=
  replays disk = total ∧
  ∀ d : Dev Sector, d.disk = disk →
    (∃ s, (mount d).1 = .ok s ∧ Serves s total) ∨ (mount d).1 = .error .io ∧ ∃ k, d.ok k = false

theorem flush_remounts {w : Bench} {total : Region → List (List UInt8)} (h : w.Keeps total) {kept : Bool}
    (hwrap : ¬ w.Wraps (.flush kept)) (hok : (w.store.flush w.dev).1 = .ok ()) :
    Remounts (w.flushed kept).dev.disk total := by
  have hkeeps := flush_keeps h hwrap
  have hends := w.flush_ends kept
  rw [hok] at hends
  generalize w.flushed kept = w' at hends hkeeps ⊢
  cases hends with
  | late _ gen d hdisk =>
      have hdisk : d.disk SB_SECTOR = superblockEncode (w.store.gen + 1) w.store.written.logHead
          w.store.written.recordCount := by
        rcases hdisk with ⟨-, hno⟩ | hdisk
        · exact absurd rfl hno
        · rw [hdisk, Function.update_self]
      have hsb := superblockDecode_encode (w.store.gen + 1) w.store.written.logHead
        w.store.written.recordCount
      rw [← hdisk] at hsb
      -- the superblock counts the frames of what was accepted
      have hscan : ∀ r, (scan d.disk r (w.store.written.recordCount r).toNat 0 none).frames = (total r).length ∧
          payloads d.disk r 0 (total r).length = total r := by
        intro r
        obtain ⟨ps, hps, htotal⟩ := hkeeps r
        have hall : ps = total r := (List.append_nil ps).symm.trans htotal
        subst hall
        have hcount : (w.store.written.recordCount r).toNat = (total r).length := hps.count
        rw [hcount]
        exact ⟨hps.frames, hps.payloads⟩
      have hcommitted : ∀ r, committedCount d.disk r = (w.store.written.recordCount r).toNat := by
        intro r
        rw [committedCount, hsb]
      refine ⟨funext fun r => ?_, fun d' hd' => ?_⟩
      · rw [replays, hcommitted, (hscan r).1, (hscan r).2]
      · rw [← hd'] at hsb hscan
        obtain ⟨d'', -, hmount | hmount⟩ := mount_scan hsb
        · refine .inl ⟨_, by rw [hmount], fun r off n => ?_⟩
          have hstream : (replayed d'.disk ⟨SB_VERSION, w.store.gen + 1, w.store.written.logHead,
              w.store.written.recordCount⟩).stream r = (total r).flatten := by
            rw [VirtioBlkStore.stream, stagedBytes]
            show (scan d'.disk r (w.store.written.recordCount r).toNat 0 none).stream ++ [] = _
            rw [List.append_nil, (scan_payloads _ _ _ _ _).1, (hscan r).1, (hscan r).2]
          rw [readAt_eq, hstream]
        · exact .inr ⟨by rw [hmount.1], hmount.2⟩

/-- All along the run reads return what was accepted, and once a flush returns so does a
remount. -/
structure Transparent (w : Bench) (base : Region → List (List UInt8)) (cs : List Call) : Prop where
  serves : ∀ pre post, cs = pre ++ post →
    Serves (exec step w pre).store fun r => base r ++ accepted r w pre
  remounts : ∀ pre kept post, cs = pre ++ .flush kept :: post →
    ((exec step w pre).store.flush (exec step w pre).dev).1 = .ok () →
    Remounts ((exec step w pre).flushed kept).dev.disk fun r => base r ++ accepted r w pre

/-- On a store whose logs were intact, I/O errors are transparent along every run without a
flush that wraps a sequence number. -/
theorem errors_transparent {d d₁ : Dev Sector} {s : VirtioBlkStore} (hm : mount d = (.ok s, d₁))
    (hwf : WellFormed d.disk) {cs : List Call}
    (hg : Guarded step (fun w c => ¬ w.Wraps c) ⟨s, d₁⟩ cs) : Transparent ⟨s, d₁⟩ (replays d.disk) cs := by
  have hkeeps : ∀ pre post, cs = pre ++ post →
      (exec step ⟨s, d₁⟩ pre).Keeps fun r => replays d.disk r ++ accepted r ⟨s, d₁⟩ pre := by
    rintro pre post rfl
    exact run_keeps pre (mount_keeps hm hwf) (guarded_append.mp hg).1
  constructor
  · intro pre post hcs r off n
    rw [readAt_eq, (hkeeps pre post hcs).stream r]
  · intro pre kept post hcs hok
    exact flush_remounts (hkeeps pre _ hcs) (guarded_iff.mp hg pre _ post hcs) hok

/-! ## A sequence number that wraps -/

/-- The bench after a mount that succeeds. -/
def mounted (d : Dev Sector) : Bench :=
  match mount d with
  | (.ok s, d') => ⟨s, d'⟩
  | (.error _, d') => ⟨empty, d'⟩

theorem mounted_eq {d : Dev Sector} (h : (mount d).1.isOk = true) :
    mount d = (.ok (mounted d).store, (mounted d).dev) := by
  rw [mounted]
  split
  · next heq => exact heq
  · next heq =>
      rw [heq] at h
      cases h

theorem wellFormed_of_scan {disk : Disk Sector}
    (h : ∀ r, (scan disk r (committedCount disk r) 0 none).frames = committedCount disk r ∧
      (scan disk r (committedCount disk r) 0 none).last ≠ some (BitVec.allOnes 64)) : WellFormed disk :=
  ⟨fun r => (intact_iff (by simp)).mpr (h r)⟩

/-- Two payloads are accepted and flushed; the second goes under number zero, and is gone. -/
theorem wrapped_append_lost : ∃ s d₁, mount (Dev.healthy lateDisk) = (.ok s, d₁) ∧
    WellFormed lateDisk ∧ ¬ Transparent ⟨s, d₁⟩ (replays lateDisk)
      [.append .episodic [7], .append .episodic [8], .flush false] := by
  refine ⟨_, _, mounted_eq (by decide +kernel), wellFormed_of_scan fun r => ?_, fun h => ?_⟩
  · cases r <;> decide +kernel
  · have hlost := h.remounts [.append .episodic [7], .append .episodic [8]] false [] rfl (by decide +kernel)
    have hepisodic := congrFun hlost.1 .episodic
    revert hepisodic
    decide +kernel

/-- A formatted disk whose fourth request fails. -/
def failingDev : Dev Sector := ⟨formatted, [], 0, fun k => k != 3⟩

/-- The first flush fails at its superblock, which the disk keeps; the second returns. -/
theorem retry_transparent : ∃ s d₁, mount failingDev = (.ok s, d₁) ∧
    Transparent ⟨s, d₁⟩ (replays failingDev.disk)
      [.append .semantic [1, 2, 3], .flush true, .readAt .semantic 0 2, .flush false] := by
  have hm := mounted_eq (d := failingDev) (by decide +kernel)
  have hwf : WellFormed failingDev.disk := wellFormed_of_scan fun r => by cases r <;> decide +kernel
  refine ⟨_, _, hm, errors_transparent hm hwf ⟨fun h => h, ?_, fun h => h, ?_, trivial⟩⟩
  · rintro ⟨r, hr⟩
    revert hr
    cases r <;> decide +kernel
  · rintro ⟨r, hr⟩
    revert hr
    cases r <;> decide +kernel

end Bench

end Yuva.Store
