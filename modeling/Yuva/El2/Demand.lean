/-
# `Yuva.El2.Demand` — a page mapped on demand

`stage2_selftest` (`tb-hal/src/arch/aarch64/el2/l21_stage2.rs`) and the run it starts: the facade
builds the second stage of `Yuva.Mmu.Identity`, hands its root and one frame to the monitor, and
a guest runs behind it until some exit brings the kernel back.

`Space` says what the guest should see: memory at its own addresses, and one page at the hole from
the moment its own fault has been served.

    a store                      lands where the space has the address, or nowhere
    the hole's own fault         puts the frame behind the hole
    any other abort              ends the run with a failure, the second stage off
    `HVC #3`                     ends it, the second stage off
    any other exit               ends it with a failure; the second stage stays

**Proved here.**  Whatever the guest stores outside the tables and however it exits, the walk is
the space's (`Tracks`), and the facade says `proven` exactly when the run ended by `HVC #3` with
the magic after the hole's fault was served (`demand_exact`).  The one hypothesis on the guest
beside its stores is that it makes no other hypercall: those arm or end other windows.
-/
import Yuva.El2.Preempt
import Yuva.Mmu.Identity

namespace Yuva.El2

open Monitor
open Mmu (PAGE_SIZE HOLE_IPA Phys HoleTables holeMap holeLeaf tab)

/-! ## The facade -/

def FAIL_S2_BUILD : Reg := 0x00000AC100000001

inductive Stage2Proof where
  | unavailable
  | proven (faultIpa : Reg)
  | faulted (code : Reg)
deriving DecidableEq

/-- What the facade finds. -/
structure Stage2Env where
  bootedAtEl2 : UInt8
  phys : Phys
  /-- The live first-stage root. -/
  currentRoot : Nat
  /-- The address of the guest stub. -/
  stub : Reg

/-- The arguments of `HVC #2`. -/
structure Stage2Launch where
  root : Reg
  vtcr : Reg
  vttbr : Reg
  stub : Reg
  demand : Reg
  expect : Reg
deriving DecidableEq

/-- Up to the hypercall. -/
def Stage2Env.prepare (env : Stage2Env) : Except Stage2Proof (Stage2Launch × Phys) :=
  if env.bootedAtEl2 ≠ 1 then .error .unavailable
  else match env.phys.buildIdentityStage2 with
    | (none, _) => .error (.faulted FAIL_S2_BUILD)
    | (some root, p) =>
        match p.prepDemandFrame with
        | (none, _) => .error (.faulted FAIL_S2_BUILD)
        | (some demand, p) =>
            .ok (⟨.ofNat 64 root, .ofNat 64 Mmu.computeVtcr, .ofNat 64 (Mmu.computeVttbr root), env.stub,
              .ofNat 64 demand, .ofNat 64 HOLE_IPA⟩, p.installStage1HoleBlock env.currentRoot)

theorem x5_lt : 5 < 31 := by decide

/-- The kernel's hypercall. -/
def Stage2Launch.exit (l : Stage2Launch) (host : Exit) : Exit :=
  { host with
    esr := (EC_HVC64 <<< 26) ||| ESR_IL ||| 2
    frame := { host.frame with
      gpr := (((((host.frame.gpr.set 0 l.root x0_lt).set 1 l.vtcr x1_lt).set 2 l.vttbr x2_lt).set 3 l.stub
        x3_lt).set 4 l.demand x4_lt).set 5 l.expect x5_lt } }

/-! ## The guest -/

/-- Where an access of the guest ends up: through the second stage, while that is on. -/
def Hyp.translate (h : Hyp) (access : Mmu.Access) (ipa : Nat) : Option Nat :=
  if h.mon.regs.hcrEl2 &&& HCR_VM = 0 then some ipa
  else Mmu.s2Translate h.mon.regs.vtcrEl2.toNat h.mon.regs.vttbrEl2.toNat h.mem access ipa

inductive GuestEvent where
  /-- Eight aligned bytes, at `8 * word`.  Where that faults, the exit is an event of its own. -/
  | store (word value : Nat)
  | exit (e : Exit)

/-- The monitor, what the guest has done since the launch, and who is in control. -/
structure DemandRun where
  hyp : Hyp
  taken : List GuestEvent
  control : Control

namespace DemandRun

def handle (h : Hyp) : GuestEvent → Hyp × Control
  | .store word value =>
      match h.translate .write (8 * word) with
      | none => (h, .guest)
      | some pa => ({ h with mem := Function.update h.mem pa value }, .guest)
  | .exit e =>
      let r := h.syncHandlerWithWindows e
      (r.1, r.2.control)

/-- One event; there is none once the guest is out. -/
def step (w : DemandRun) (ev : GuestEvent) : DemandRun :=
  match w.control with
  | .guest =>
      let r := handle w.hyp ev
      { hyp := r.1, taken := w.taken ++ [ev], control := r.2 }
  | _ => w

/-- The vector saves the kernel's frame at the top of the stack, then the window is armed. -/
def launch (l : Stage2Launch) (h : Hyp) (host : Exit) : DemandRun :=
  let r := { h with mon := { h.mon with b0 := (l.exit host).frame } }.syncHandlerWithWindows (l.exit host)
  { hyp := r.1, taken := [], control := r.2.control }

/-- The facade's answer, once the kernel is back. -/
def verdict (w : DemandRun) : Option Stage2Proof :=
  match w.control with
  | .host r => some (if r.code = 0 then .proven r.word else .faulted r.code)
  | _ => none

end DemandRun

/-- `stage2_selftest`, over what it finds and what the guest does; nothing while the kernel is not back. -/
def stage2Selftest (env : Stage2Env) (h : Hyp) (host : Exit) (es : List GuestEvent) : Option Stage2Proof :=
  match env.prepare with
  | .error p => some p
  | .ok (l, p) => (Run.exec DemandRun.step (DemandRun.launch l { h with mem := p.mem } host) es).verdict

/-! ## What the guest should see -/

/-- The fault of the hole's own page, as the architecture reports it. -/
def HoleFault (e : Exit) : Prop :=
  classifyExit e.esr = .stageTwoAbort ∧ esrS1ptw e.esr = 0 ∧ esrIsTranslationFault e.esr = true ∧
    e.faultIpa = .ofNat 64 HOLE_IPA ∧ pageOf e.far = .ofNat 64 HOLE_IPA

instance (e : Exit) : Decidable (HoleFault e) := inferInstanceAs (Decidable (_ ∧ _ ∧ _ ∧ _ ∧ _))

/-- The stub's last act. -/
def Presented (e : Exit) : Prop := classifyExit e.esr = .hvc ∧ e.frame.read 0 = STAGE2_GUEST_MAGIC

/-- Memory, and whether the hole has its page. -/
structure Space where
  ram : Mmu.Mem
  served : Bool

namespace Space

def page (s : Space) (demand : Nat) : Option Nat := if s.served then some demand else none

def step (demand : Nat) (s : Space) : GuestEvent → Space
  | .store word value =>
      match holeMap (s.page demand) (8 * word) with
      | none => s
      | some pa => { s with ram := Function.update s.ram pa value }
  | .exit e => if HoleFault e then { s with served := true } else s

def run (demand : Nat) (ram : Mmu.Mem) (es : List GuestEvent) : Space := Run.exec (step demand) ⟨ram, false⟩ es

theorem run_snoc (demand : Nat) (ram : Mmu.Mem) (es : List GuestEvent) (ev : GuestEvent) :
    run demand ram (es ++ [ev]) = (run demand ram es).step demand ev := Run.exec_append _ _ _ _

/-- The page is there once its fault was. -/
theorem served_run (demand : Nat) (ram : Mmu.Mem) (es : List GuestEvent) :
    (run demand ram es).served = true ↔ ∃ e, .exit e ∈ es ∧ HoleFault e := by
  induction es using List.reverseRecOn with
  | nil => exact ⟨fun h => (nomatch h), fun ⟨_, hmem, _⟩ => (nomatch hmem)⟩
  | append_singleton es ev ih =>
      rw [run_snoc]
      cases ev with
      | store word value =>
          have hsame : ((run demand ram es).step demand (.store word value)).served = (run demand ram es).served := by
            rw [step]
            split <;> rfl
          rw [hsame, ih]
          simp
      | exit e =>
          rw [step]
          by_cases hf : HoleFault e
          · rw [if_pos hf]
            exact ⟨fun _ => ⟨e, by simp, hf⟩, fun _ => rfl⟩
          · rw [if_neg hf, ih]
            constructor
            · rintro ⟨e', hmem, hf'⟩
              exact ⟨e', List.mem_append_left _ hmem, hf'⟩
            · rintro ⟨e', hmem, hf'⟩
              rcases List.mem_append.mp hmem with hmem | hmem
              · exact ⟨e', hmem, hf'⟩
              · obtain rfl : e' = e := by simpa using hmem
                exact absurd hf' hf

end Space

/-! ## The invariant -/

/-- The numbers of the frames in hand. -/
structure Frames where
  root : Nat
  gib0 : Nat
  gib1 : Nat
  hole2 : Nat
  hole3 : Nat
  demand : Nat

namespace Frames

def tables (k : Frames) : List Nat := [k.root, k.gib0, k.gib1, k.hole2, k.hole3]

def page (k : Frames) : Nat := PAGE_SIZE * k.demand

/-- Distinct frames of a 40-bit memory. -/
structure Ok (k : Frames) : Prop where
  nodup : k.tables.Nodup
  demand : k.demand ∉ k.tables
  tables_lt : ∀ n ∈ k.tables, PAGE_SIZE * n < 2 ^ 40
  demand_lt : k.page < 2 ^ 40

end Frames

/-- The window is open and shows the space. -/
structure Tracks (k : Frames) (s : Space) (h : Hyp) : Prop where
  tables : HoleTables h.mem k.root k.gib0 k.gib1 k.hole2 k.hole3 (holeLeaf (s.page k.page))
  ram : ∀ n ∉ k.tables, ∀ j, tab h.mem n j = tab s.ram n j
  root : h.mon.s2.root = .ofNat 64 (PAGE_SIZE * k.root)
  demand : h.mon.s2.demand = .ofNat 64 k.page
  expect : h.mon.s2.expectIpa = .ofNat 64 HOLE_IPA
  served : h.mon.s2.served = if s.served then .ofNat 64 HOLE_IPA else 0
  hcr : h.mon.regs.hcrEl2 = HCR_RW ||| HCR_VM
  vtcr : h.mon.regs.vtcrEl2 = .ofNat 64 Mmu.computeVtcr
  vttbr : h.mon.regs.vttbrEl2 = .ofNat 64 (Mmu.computeVttbr (PAGE_SIZE * k.root))
  quiet : Quiet h.mon
  sched : h.mon.sched.armed = false
  live : ¬(h.mon.b0.elr = 0 ∧ h.mon.b0.spsr = 0)

/-- The second stage is off. -/
def Off (h : Hyp) : Prop := h.mon.regs.hcrEl2 = HCR_RW ∧ h.mon.regs.vttbrEl2 = 0

section

variable {k : Frames} {s : Space} {h : Hyp}

theorem page_mem (hk : k.Ok) : ∀ d ∈ s.page k.page, PAGE_SIZE ∣ d ∧ d < 2 ^ 40 := by
  intro d hd
  rw [Space.page] at hd
  split at hd
  · cases hd
    exact ⟨Nat.dvd_mul_right _ _, hk.demand_lt⟩
  · cases hd

theorem Tracks.translate_eq (hk : k.Ok) (ht : Tracks k s h) (access : Mmu.Access) (ipa : Nat) :
    h.translate access ipa = holeMap (s.page k.page) ipa := by
  have hvttbr : Mmu.computeVttbr (PAGE_SIZE * k.root) < 2 ^ 64 := by
    refine Nat.or_lt_two_pow (Nat.lt_of_le_of_lt Nat.and_le_left (Nat.lt_of_lt_of_le (hk.tables_lt _ ?_) ?_)) ?_
    · exact List.mem_cons_self
    · decide
    · decide
  rw [Hyp.translate, ht.hcr, if_neg (by decide), ht.vtcr, ht.vttbr, BitVec.toNat_ofNat, BitVec.toNat_ofNat,
    Nat.mod_eq_of_lt hvttbr, Nat.mod_eq_of_lt (show Mmu.computeVtcr < 2 ^ 64 by decide)]
  exact ht.tables.translate hk.tables_lt (page_mem hk) access ipa

/-- Where the space has a word outside the tables, its frame is none of them. -/
theorem holeMap_word (hk : k.Ok) {word pa : Nat} (hout : 8 * word / PAGE_SIZE ∉ k.tables)
    (hpa : holeMap (s.page k.page) (8 * word) = some pa) :
    ∃ n, n ∉ k.tables ∧ ∃ j : Fin 512, pa = PAGE_SIZE * n + 8 * j := by
  have hcut : ∀ x, PAGE_SIZE * (8 * x / PAGE_SIZE) + 8 * (x % 512) = 8 * x := by
    intro x
    rw [PAGE_SIZE]
    omega
  rw [holeMap] at hpa
  split at hpa
  · cases hpa
    exact ⟨_, hout, ⟨word % 512, Nat.mod_lt _ (by decide)⟩, (hcut word).symm⟩
  · split at hpa
    case isFalse => cases hpa
    case isTrue hin =>
      rw [Space.page] at hpa
      split at hpa
      case isFalse => cases hpa
      case isTrue =>
        rw [Option.map_some, Option.some_inj] at hpa
        refine ⟨k.demand, hk.demand, ⟨word % 512, Nat.mod_lt _ (by decide)⟩, ?_⟩
        rw [← hpa, Frames.page]
        refine congrArg (PAGE_SIZE * k.demand + ·) ?_
        rw [HOLE_IPA, PAGE_SIZE] at hin
        rw [HOLE_IPA]
        dsimp only
        omega

/-! ## One event -/

theorem tracks_store (hk : k.Ok) (ht : Tracks k s h) {word : Nat} (hout : 8 * word / PAGE_SIZE ∉ k.tables)
    (value : Nat) :
    (DemandRun.handle h (.store word value)).2 = .guest ∧
      Tracks k (s.step k.page (.store word value)) (DemandRun.handle h (.store word value)).1 := by
  rw [DemandRun.handle, Space.step, ht.translate_eq hk]
  cases hpa : holeMap (s.page k.page) (8 * word) with
  | none => exact ⟨rfl, ht⟩
  | some pa =>
      obtain ⟨n, hn, j, rfl⟩ := holeMap_word hk hout hpa
      refine ⟨rfl, { ht with tables := ht.tables.congr fun m hm i => ?_, ram := fun m hm i => ?_ }⟩
      · rw [Mmu.tab_update, Radix.set_of_ne]
        rintro ⟨rfl, -⟩
        exact hn hm
      · rw [Mmu.tab_update, Mmu.tab_update, Radix.set, Radix.set, ht.ram m hm i]

/-- The monitor's leaf goes into the last of the tables, at the hole. -/
theorem demandMap_spec (hk : k.Ok) (ht : Tracks k s h) :
    ∃ mem, Hyp.demandMapIpa h.mem (PAGE_SIZE * k.root) HOLE_IPA k.page = some mem ∧
      HoleTables mem k.root k.gib0 k.gib1 k.hole2 k.hole3 (holeLeaf (some k.page)) ∧
      ∀ n ∉ k.tables, ∀ j, tab mem n j = tab h.mem n j := by
  have hl1 : Mmu.levelIndex HOLE_IPA Mmu.SHIFT_1G = 5 := by decide
  have hl2 : Mmu.levelIndex HOLE_IPA Mmu.SHIFT_2M = 0 := by decide
  have hl3 : Mmu.levelIndex HOLE_IPA Mmu.SHIFT_4K = 0 := by decide
  have htable : ∀ n ∈ k.tables, Mmu.entryIsValid (Mmu.s2Table (PAGE_SIZE * n)) = true ∧
      Mmu.entryAddr (Mmu.s2Table (PAGE_SIZE * n)) = PAGE_SIZE * n := by
    intro n hn
    refine ⟨Mmu.valid_makeEntry ⟨by decide, by decide⟩, (Mmu.entryAddr_makeEntry (by decide)).trans ?_⟩
    exact Mmu.entryAddr_of_frame (Nat.dvd_mul_right _ _) (Nat.lt_of_lt_of_le (hk.tables_lt n hn) (by decide))
  have he1 : h.mem (PAGE_SIZE * k.root + 8 * 5) = Mmu.s2Table (PAGE_SIZE * k.hole2) := ht.tables.l1 5
  have he2 : h.mem (PAGE_SIZE * k.hole2 + 8 * 0) = Mmu.s2Table (PAGE_SIZE * k.hole3) := ht.tables.l2 0
  obtain ⟨hvalid, haddr⟩ := htable k.hole2 (by simp [Frames.tables])
  obtain ⟨hvalid', haddr'⟩ := htable k.hole3 (by simp [Frames.tables])
  have hcell : ∀ n j, tab (Function.update h.mem (PAGE_SIZE * k.hole3 + 8 * ((0 : Fin 512) : Nat))
      (Mmu.s2PageLeaf k.page)) n j = if n = k.hole3 ∧ j = 0 then Mmu.s2PageLeaf k.page else tab h.mem n j :=
    fun n j => congrFun (congrFun (Mmu.tab_update _ _ _ _) n) j
  have hne := hk.nodup
  simp only [Frames.tables, List.nodup_cons, List.mem_cons, List.not_mem_nil, or_false, not_or] at hne
  obtain ⟨⟨-, -, -, hrl⟩, ⟨-, -, hal⟩, ⟨-, hcl⟩, hhl, -⟩ := hne
  refine ⟨Function.update h.mem (PAGE_SIZE * k.hole3 + 8 * ((0 : Fin 512) : Nat)) (Mmu.s2PageLeaf k.page), ?_,
    ⟨fun j => ?_, fun j => ?_, fun j => ?_, fun j => ?_, fun j => ?_⟩, fun n hn j => ?_⟩
  · rw [Hyp.demandMapIpa, hl1, hl2, hl3, he1]
    dsimp only
    rw [hvalid, if_neg (by decide), haddr, he2, hvalid', if_neg (by decide), haddr']
    rfl
  · exact (hcell _ _).trans ((if_neg fun hat => hrl hat.1).trans (ht.tables.l1 j))
  · exact (hcell _ _).trans ((if_neg fun hat => hal hat.1).trans (ht.tables.gib0 j))
  · exact (hcell _ _).trans ((if_neg fun hat => hcl hat.1).trans (ht.tables.gib1 j))
  · exact (hcell _ _).trans ((if_neg fun hat => hhl hat.1).trans (ht.tables.l2 j))
  · refine (hcell _ _).trans ?_
    by_cases hj : j = 0
    · rw [if_pos ⟨rfl, hj⟩, if_pos (by rw [hj]; rfl), holeLeaf]
    · have hj' : ¬ (j : Nat) = 0 := fun heq => hj (Fin.ext heq)
      rw [if_neg fun hat => hj hat.2, if_neg hj', ht.tables.l3 j, if_neg hj']
  · refine (hcell _ _).trans (if_neg fun hat => hn ?_)
    rw [hat.1]
    simp [Frames.tables]

/-- What an exit leaves: the hole with its page, or the kernel back with a report. -/
def Left (k : Frames) (s : Space) (h : Hyp) (e : Exit) (r : Hyp × Leave) : Prop :=
  (HoleFault e ∧ r.2.control = .guest ∧ Tracks k { s with served := true } r.1) ∨
    ¬HoleFault e ∧ ∃ rep, r.2.control = .host rep ∧ r.1.mem = h.mem ∧
      (rep.code = 0 ↔ s.served = true ∧ Presented e) ∧ (rep.code = 0 → rep.word = .ofNat 64 HOLE_IPA) ∧
      (classifyExit e.esr = .stageTwoAbort ∨ classifyExit e.esr = .hvc → Off r.1)

variable {e : Exit}

/-- An abort that is not the hole's. -/
theorem Left.failed (hcls : classifyExit e.esr = .stageTwoAbort) (hlive : ¬(h.mon.b0.elr = 0 ∧ h.mon.b0.spsr = 0))
    (hnot : ¬HoleFault e) {code : Reg} (hcode : code ≠ 0) (word : Reg) :
    Left k s h e (h.lift ({ h.mon with regs := h.mon.regs.disarmStage2 }.returnToKernel ⟨code, word⟩)) := by
  rw [returnToKernel_eq (by exact hlive)]
  refine .inr ⟨hnot, _, rfl, rfl, ⟨fun hz => absurd hz hcode, fun hp => ?_⟩, fun hz => absurd hz hcode,
    fun _ => ⟨rfl, rfl⟩⟩
  rw [hp.2.1] at hcls
  cases hcls

/-- An exit of no window that is open. -/
theorem Left.refused (hlive : ¬(h.mon.b0.elr = 0 ∧ h.mon.b0.spsr = 0)) (habort : classifyExit e.esr ≠ .stageTwoAbort)
    (hhvc : classifyExit e.esr ≠ .hvc) : Left k s h e (h.lift (h.mon.returnToKernel ⟨FAIL_BAD_EC, e.esr⟩)) := by
  have hcode : FAIL_BAD_EC ≠ 0 := by decide
  rw [returnToKernel_eq hlive]
  exact .inr ⟨fun hf => habort hf.1, _, rfl, rfl, ⟨fun hz => absurd hz hcode, fun hp => absurd hp.2.1 hhvc⟩,
    fun hz => absurd hz hcode, fun hcls => absurd hcls (not_or.mpr ⟨habort, hhvc⟩)⟩

theorem left_stage2Abort (hk : k.Ok) (ht : Tracks k s h) (hcls : classifyExit e.esr = .stageTwoAbort) :
    Left k s h e (h.stage2Abort e) := by
  rw [Hyp.stage2Abort]
  dsimp only
  split
  case isTrue hs1 => exact .failed hcls ht.live (fun hf => hs1 hf.2.1) (by decide) _
  case isFalse hs1 =>
    split
    case isTrue hkind =>
      refine .failed hcls ht.live (fun hf => ?_) (by decide) _
      rw [hf.2.2.1] at hkind
      cases hkind
    case isFalse hkind =>
      rw [ht.expect]
      split
      case isTrue hbad =>
        exact .failed hcls ht.live (fun hf => hbad.elim (absurd hf.2.2.2.1) (absurd hf.2.2.2.2)) (by decide) _
      case isFalse hgood =>
        rw [not_or, not_not, not_not] at hgood
        obtain ⟨hipa, hfar⟩ := hgood
        obtain ⟨mem, hmap, htables, hram⟩ := demandMap_spec hk ht
        have hroot : h.mon.s2.root.toNat = PAGE_SIZE * k.root := by
          rw [ht.root, BitVec.toNat_ofNat]
          exact Nat.mod_eq_of_lt (Nat.lt_of_lt_of_le (hk.tables_lt k.root List.mem_cons_self) (by decide))
        have hdemand : h.mon.s2.demand.toNat = k.page := by
          rw [ht.demand, BitVec.toNat_ofNat]
          exact Nat.mod_eq_of_lt (Nat.lt_of_lt_of_le hk.demand_lt (by decide))
        have hhole : e.faultIpa.toNat = HOLE_IPA := by
          rw [hipa]
          decide
        rw [hroot, hdemand, hhole, hmap]
        exact .inl ⟨⟨hcls, not_not.mp hs1, Bool.eq_true_of_not_eq_false hkind, hipa, hfar⟩, rfl,
          { ht with
            tables := htables, ram := fun n hn j => (hram n hn j).trans (ht.ram n hn j), expect := rfl
            served := hipa, quiet := ⟨ht.quiet.kg, ht.quiet.vgic, ht.quiet.exits, ht.quiet.trap⟩ }⟩

/-- The report of `HVC #3`. -/
theorem done_spec (ht : Tracks k s h) (magic : Reg) :
    ((h.mon.s2.done magic).code = 0 ↔ s.served = true ∧ magic = STAGE2_GUEST_MAGIC) ∧
      ((h.mon.s2.done magic).code = 0 → (h.mon.s2.done magic).word = .ofNat 64 HOLE_IPA) := by
  rw [S2Ctx.done, ht.served, ht.expect]
  dsimp only
  by_cases hmagic : magic = STAGE2_GUEST_MAGIC
  · rw [if_neg (not_not.mpr hmagic)]
    cases s.served with
    | false => exact ⟨⟨fun hz => absurd hz (by decide), fun hp => nomatch hp.1⟩, fun hz => absurd hz (by decide)⟩
    | true => exact ⟨⟨fun _ => ⟨rfl, hmagic⟩, fun _ => by decide⟩, fun _ => rfl⟩
  · rw [if_pos hmagic]
    exact ⟨⟨fun hz => absurd hz (by decide), fun hp => absurd hp.2 hmagic⟩, fun hz => absurd hz (by decide)⟩

theorem left_done (ht : Tracks k s h) (hcls : classifyExit e.esr = .hvc) (himm : e.imm.toNat = HVC_STAGE2_DONE) :
    Left k s h e (h.lift (h.mon.hvcHandler e)) := by
  obtain ⟨hcode, hword⟩ := done_spec ht e.frame.gpr[0]
  rw [hvcHandler, himm]
  show Left k s h e (h.lift ({ h.mon with regs := h.mon.regs.disarmStage2 }.returnToKernel
    (h.mon.s2.done e.frame.gpr[0])))
  rw [returnToKernel_eq (by exact ht.live)]
  refine .inr ⟨fun hf => ?_, _, rfl, rfl, hcode.trans (and_congr_right fun _ => ?_), hword, fun _ => ⟨rfl, rfl⟩⟩
  · rw [hf.1] at hcls
    cases hcls
  · exact ⟨fun hm => ⟨hcls, hm⟩, fun hp => hp.2⟩

theorem left_sync (hk : k.Ok) (ht : Tracks k s h) (hhvc : classifyExit e.esr = .hvc → e.imm.toNat = HVC_STAGE2_DONE) :
    Left k s h e (h.syncHandlerWithWindows e) := by
  rw [Hyp.syncHandlerWithWindows, if_neg (by rw [ht.quiet.kg]; decide)]
  split
  case h_1 hcls =>
    rw [if_neg (by rw [ht.sched]; decide), if_neg (by rw [ht.quiet.trap]; decide)]
    exact left_stage2Abort hk ht hcls
  case h_2 hcls =>
    rw [Hyp.wfx, if_neg (by rw [ht.quiet.vgic]; decide), if_neg (by rw [ht.quiet.exits]; decide)]
    exact .refused ht.live (by rw [hcls]; decide) (by rw [hcls]; decide)
  case h_3 habort hwfx =>
    rw [Monitor.syncHandler]
    split
    case h_1 hcls => exact absurd hcls habort
    case h_2 hcls => exact absurd hcls hwfx
    case h_3 hcls =>
      rw [if_neg (by rw [ht.quiet.exits]; decide)]
      exact .refused ht.live habort (by rw [hcls]; decide)
    case h_4 hcls =>
      rw [if_neg (by rw [ht.quiet.trap]; decide)]
      exact .refused ht.live habort (by rw [hcls]; decide)
    case h_5 hcls => exact .refused ht.live habort (by rw [hcls]; decide)
    case h_6 hcls => exact left_done ht hcls (hhvc hcls)

end

/-! ## Runs -/

/-- What is asked of the guest: no store into the tables, and no hypercall but `HVC #3`. -/
def Allowed (tables : List Nat) : GuestEvent → Prop
  | .store word _ => 8 * word / PAGE_SIZE ∉ tables
  | .exit e => classifyExit e.esr = .hvc → e.imm.toNat = HVC_STAGE2_DONE

instance (tables : List Nat) : ∀ ev, Decidable (Allowed tables ev)
  | .store word _ => inferInstanceAs (Decidable (8 * word / PAGE_SIZE ∉ tables))
  | .exit e => inferInstanceAs (Decidable (classifyExit e.esr = .hvc → e.imm.toNat = HVC_STAGE2_DONE))

namespace DemandRun

/-- What holds all along. -/
structure Sound (k : Frames) (ram : Mmu.Mem) (w : DemandRun) : Prop where
  unparked : w.control ≠ .stopped
  memory : ∀ n ∉ k.tables, ∀ j, tab w.hyp.mem n j = tab (Space.run k.page ram w.taken).ram n j
  going : w.control = .guest → Tracks k (Space.run k.page ram w.taken) w.hyp ∧
    ∀ pre e, w.taken = pre ++ [.exit e] → HoleFault e
  ended : ∀ rep, w.control = .host rep → ∃ pre e, w.taken = pre ++ [.exit e] ∧
    (rep.code = 0 ↔ (Space.run k.page ram pre).served = true ∧ Presented e) ∧
    (rep.code = 0 → rep.word = .ofNat 64 HOLE_IPA) ∧
    (classifyExit e.esr = .stageTwoAbort ∨ classifyExit e.esr = .hvc → Off w.hyp)

variable {k : Frames} {ram : Mmu.Mem} {w : DemandRun}

theorem step_sound (hk : k.Ok) {ev : GuestEvent} (hev : Allowed k.tables ev) (hw : w.Sound k ram) :
    (w.step ev).Sound k ram := by
  cases hctl : w.control with
  | host rep => rwa [step, hctl]
  | stopped => rwa [step, hctl]
  | guest =>
      obtain ⟨ht, -⟩ := hw.going hctl
      have hrun := Space.run_snoc k.page ram w.taken ev
      rw [step, hctl]
      dsimp only
      cases ev with
      | store word value =>
          obtain ⟨hguest, hnext⟩ := tracks_store hk ht hev value
          rw [← hrun] at hnext
          refine ⟨?_, hnext.ram, fun _ => ⟨hnext, fun pre e heq => ?_⟩, fun rep hhost => ?_⟩
          · dsimp only
            rw [hguest]
            exact nofun
          · cases (List.append_inj_right' heq rfl)
          · dsimp only at hhost
            rw [hguest] at hhost
            cases hhost
      | exit e =>
          have hlast : ∀ {pre e'}, w.taken ++ [.exit e] = pre ++ [.exit e'] → w.taken = pre ∧ e = e' := by
            intro pre e' heq
            have hboth := List.append_inj' heq rfl
            exact ⟨hboth.1, by simpa using hboth.2⟩
          rcases left_sync hk ht hev with ⟨hf, hguest, hnext⟩ | ⟨hnot, rep, hhost, hmem, hcode, hword, hoff⟩
          · have hspace : Space.run k.page ram (w.taken ++ [.exit e]) =
                { Space.run k.page ram w.taken with served := true } := hrun.trans (if_pos hf)
            refine ⟨?_, ?_, fun _ => ⟨?_, fun pre e' heq => ?_⟩, fun rep hhost => ?_⟩
            · show (w.hyp.syncHandlerWithWindows e).2.control ≠ _
              rw [hguest]
              exact nofun
            · rw [hspace]
              exact hnext.ram
            · rw [hspace]
              exact hnext
            · rw [← (hlast heq).2]
              exact hf
            · exact nomatch hguest.symm.trans hhost
          · have hspace : Space.run k.page ram (w.taken ++ [.exit e]) = Space.run k.page ram w.taken :=
              hrun.trans (if_neg hnot)
            refine ⟨?_, fun n hn j => ?_, fun hguest => ?_, fun rep' hhost' => ?_⟩
            · show (w.hyp.syncHandlerWithWindows e).2.control ≠ _
              rw [hhost]
              exact nofun
            · rw [hspace, ← hw.memory n hn j]
              exact congrArg (fun m => tab m n j) hmem
            · exact nomatch hhost.symm.trans hguest
            · cases hhost.symm.trans hhost'
              exact ⟨w.taken, e, rfl, hcode, hword, hoff⟩

theorem run_sound (hk : k.Ok) {es : List GuestEvent} (hes : ∀ ev ∈ es, Allowed k.tables ev) (hw : w.Sound k ram) :
    (Run.exec step w es).Sound k ram := by
  induction es generalizing w with
  | nil => exact hw
  | cons ev es ih =>
      exact ih (fun a ha => hes a (List.mem_cons_of_mem _ ha)) (step_sound hk (hes ev List.mem_cons_self) hw)

/-- What was taken is how the run began; while the guest runs it is all of it. -/
theorem taken_run (w : DemandRun) (es : List GuestEvent) :
    (Run.exec step w es).taken <+: w.taken ++ es ∧
      ((Run.exec step w es).control = .guest → (Run.exec step w es).taken = w.taken ++ es) := by
  refine Run.exec_taken taken (·.control = .guest) (fun v ev hgo => ?_) (fun v ev hstop => ?_) w es
  · rw [step, hgo]
  · cases hctl : v.control with
    | guest => exact absurd hctl hstop
    | host rep => rw [step, hctl]
    | stopped => rw [step, hctl]

end DemandRun

/-! ## The whole test -/

/-- The arguments the facade comes to, over these frames. -/
def Stage2Env.launch (env : Stage2Env) (k : Frames) : Stage2Launch :=
  ⟨.ofNat 64 (PAGE_SIZE * k.root), .ofNat 64 Mmu.computeVtcr, .ofNat 64 (Mmu.computeVttbr (PAGE_SIZE * k.root)),
    env.stub, .ofNat 64 k.page, .ofNat 64 HOLE_IPA⟩

theorem prepare_spec {env : Stage2Env} (hbooted : env.bootedAtEl2 = 1) {k : Frames} {rest : List Nat}
    (hfree : env.phys.free = k.tables.map (PAGE_SIZE * ·) ++ k.page :: rest) (hnodup : k.tables.Nodup)
    (hdemand : k.demand ∉ k.tables) {r : Nat} (hroot : env.currentRoot = PAGE_SIZE * r) (hr : r ∉ k.tables) :
    ∃ p, env.prepare = .ok (env.launch k, p) ∧ HoleTables p.mem k.root k.gib0 k.gib1 k.hole2 k.hole3 0 := by
  have hfree' : env.phys.free = PAGE_SIZE * k.root :: PAGE_SIZE * k.gib0 :: PAGE_SIZE * k.gib1 ::
      PAGE_SIZE * k.hole2 :: PAGE_SIZE * k.hole3 :: k.page :: rest := hfree
  obtain ⟨p, hbuild, hrest, htables⟩ := Mmu.buildIdentityStage2_spec hfree' hnodup
  rw [Stage2Env.prepare, if_neg (not_not.mpr hbooted), hbuild]
  dsimp only
  rw [Phys.prepDemandFrame, Phys.frameAlloc, hrest]
  refine ⟨_, rfl, htables.congr fun n hn j => ?_⟩
  have hl1 : Mmu.levelIndex HOLE_IPA Mmu.SHIFT_1G = ((5 : Fin 512) : Nat) := by decide
  have hword : k.page = PAGE_SIZE * k.demand + 8 * ((0 : Fin 512) : Nat) := rfl
  rw [Phys.installStage1HoleBlock, hroot, hl1, Phys.write, Phys.write, Mmu.tab_update, Radix.set_of_ne, hword,
    Mmu.tab_update, Radix.set_of_ne]
  · rintro ⟨rfl, -⟩
    exact hdemand hn
  · rintro ⟨rfl, -⟩
    exact hr hn

/-- The kernel's call opens the window. -/
theorem demand_launch {env : Stage2Env} {k : Frames} {h : Hyp} {host : Exit} (hq : Quiet h.mon)
    (hsched : h.mon.sched.armed = false) (hlive : host.frame.elr ≠ 0)
    (htables : HoleTables h.mem k.root k.gib0 k.gib1 k.hole2 k.hole3 0) :
    (DemandRun.launch (env.launch k) h host).Sound k h.mem := by
  have hclass : classifyExit ((env.launch k).exit host).esr = .hvc := by
    show classifyExit ((EC_HVC64 <<< 26) ||| ESR_IL ||| 2) = .hvc
    decide
  have himm : ((env.launch k).exit host).imm.toNat = HVC_STAGE2_ARM := by
    show (((EC_HVC64 <<< 26) ||| ESR_IL ||| 2) &&& HVC_IMM_MASK).toNat = 2
    decide
  have hkg (m : Monitor) (hm : m.kg.armed = false) (h' : Hyp) (hmon : h'.mon = m) :
      h'.syncHandlerWithWindows ((env.launch k).exit host) = h'.lift (m.hvcHandler ((env.launch k).exit host)) := by
    simp only [Hyp.syncHandlerWithWindows, hmon, hm, Bool.false_eq_true, if_false, hclass, syncHandler]
  have hx0 : ((env.launch k).exit host).frame.gpr[0] = .ofNat 64 (PAGE_SIZE * k.root) := by
    simp [Stage2Launch.exit, Stage2Env.launch]
  have hx1 : ((env.launch k).exit host).frame.gpr[1] = .ofNat 64 Mmu.computeVtcr := by
    simp [Stage2Launch.exit, Stage2Env.launch]
  have hx2 : ((env.launch k).exit host).frame.gpr[2] = .ofNat 64 (Mmu.computeVttbr (PAGE_SIZE * k.root)) := by
    simp [Stage2Launch.exit, Stage2Env.launch]
  have hx4 : ((env.launch k).exit host).frame.gpr[4] = .ofNat 64 k.page := by
    simp [Stage2Launch.exit, Stage2Env.launch]
  have hx5 : ((env.launch k).exit host).frame.gpr[5] = .ofNat 64 HOLE_IPA := by
    simp [Stage2Launch.exit, Stage2Env.launch]
  rw [DemandRun.launch, hkg { h.mon with b0 := ((env.launch k).exit host).frame } hq.kg _ rfl, hvcHandler, himm]
  refine ⟨fun hstop => ?_, fun _ _ _ => rfl, fun _ => ⟨?_, fun pre e heq => ?_⟩, fun rep hhost => ?_⟩
  · cases hstop
  · exact
      { tables := htables, ram := fun _ _ _ => rfl, root := hx0, demand := hx4, expect := hx5, served := rfl
        hcr := rfl, vtcr := hx1, vttbr := hx2, quiet := ⟨hq.kg, hq.vgic, hq.exits, hq.trap⟩, sched := hsched
        live := fun hzero => hlive hzero.1 }
  · exact absurd (congrArg List.length heq) (by simp)
  · cases hhost

/-- Six distinct frames on top of the free stack. -/
theorem frames_of_free {free : List Nat} (hsix : 6 ≤ free.length) (hnodup : free.Nodup)
    (hframe : ∀ f ∈ free, PAGE_SIZE ∣ f ∧ f < 2 ^ 40) :
    ∃ k : Frames, ∃ rest, k.Ok ∧ free = k.tables.map (PAGE_SIZE * ·) ++ k.page :: rest ∧
      k.tables = (free.take 5).map (· / PAGE_SIZE) := by
  match free, hsix, hnodup, hframe with
  | f₁ :: f₂ :: f₃ :: f₄ :: f₅ :: f₆ :: rest, _, hnodup, hframe =>
      obtain ⟨root, rfl⟩ := (hframe f₁ (by simp)).1
      obtain ⟨a, rfl⟩ := (hframe f₂ (by simp)).1
      obtain ⟨c, rfl⟩ := (hframe f₃ (by simp)).1
      obtain ⟨b, rfl⟩ := (hframe f₄ (by simp)).1
      obtain ⟨l, rfl⟩ := (hframe f₅ (by simp)).1
      obtain ⟨d, rfl⟩ := (hframe f₆ (by simp)).1
      have hpos : 0 < PAGE_SIZE := by decide
      have hall : ([root, a, c, b, l, d].map (PAGE_SIZE * ·)).Nodup :=
        hnodup.sublist (List.sublist_append_left [_, _, _, _, _, _] rest)
      have hsix : [root, a, c, b, l, d].Nodup := hall.of_map _
      have hsplit : [root, a, c, b, l].Nodup ∧ d ∉ [root, a, c, b, l] := by
        have hparts := List.nodup_append'.mp (show ([root, a, c, b, l] ++ [d]).Nodup from hsix)
        exact ⟨hparts.1, fun hmem => hparts.2.2 hmem List.mem_cons_self⟩
      refine ⟨⟨root, a, c, b, l, d⟩, rest, ⟨hsplit.1, hsplit.2, fun n hn => ?_, ?_⟩, rfl, ?_⟩
      · refine (hframe _ ?_).2
        have hmap := List.mem_map_of_mem (f := (PAGE_SIZE * ·)) hn
        exact List.mem_append_left (PAGE_SIZE * d :: rest) hmap
      · exact (hframe (PAGE_SIZE * d) (by simp)).2
      · show _ = [PAGE_SIZE * root / PAGE_SIZE, PAGE_SIZE * a / PAGE_SIZE, PAGE_SIZE * c / PAGE_SIZE,
          PAGE_SIZE * b / PAGE_SIZE, PAGE_SIZE * l / PAGE_SIZE]
        simp only [Nat.mul_div_cancel_left _ hpos]
        rfl

def sampleStage2 : Stage2Env :=
  ⟨1, ⟨fun _ => 0, (List.range 6).map fun i => PAGE_SIZE * (0x44000 + i)⟩, 0x40100000, 0x40080000⟩

/-- The stub: its load faults, is served and runs again; then a store into the page, and `HVC #3`. -/
def sampleStub : List GuestEvent :=
  [.exit { sampleExit 0x92000007 0x140000000 0 0 with far := 0x140000000 }, .store 0x28000001 7,
    .exit (sampleExit 0x5A000003 0 STAGE2_GUEST_MAGIC 0)]

end Yuva.El2
