/-
# `Yuva.Caps.Table` — the generation-checked capability table

`tb-caps-core/src/table.rs`, generic in the object payload `O` as the source
is.  A `Handle` is one 64-bit word, generation in the high half and slot in the
low half; authority lives in the slot, so a handle is re-validated field by
field on every `live`.

**What a call can do to a table.**  All seven calls mutate through `alloc` and
`freeSlot` only, so there are four shapes of change, collected once in
`Change` and proved exhaustive in `alloc_change`, `freeSlot_change`:

    same      nothing
    reuse     the top of the free list is occupied again, generation kept
    fresh     a slot of generation 1 is pushed, the free list being empty
    vacate    an occupied slot is emptied; its generation is bumped and it is
              listed free, or, at `u32::MAX`, it is retired

`Sound` is the table invariant, `Change.sound` its preservation, and
`Change.grows` and `Change.stays_dead` are the two facts about generations that
the run-level results are folded from.

A `Vec` used as a stack is a list with its top at the head.  Rust's `v[i]`
panics out of range; the two places where that could happen are written as the
identity and are shown unreachable by `Sound`.
-/
import Yuva.Caps.Rights

namespace Yuva.Caps

/-- The opaque handle word. -/
structure Handle where
  raw : BitVec 64
deriving DecidableEq, Repr

namespace Handle

def SLOT_BITS : Nat := 32

/-- The reserved invalid handle. -/
def NULL : Handle := ⟨0⟩

def new (generation slot : BitVec 32) : Handle :=
  ⟨(generation.setWidth 64 <<< SLOT_BITS) ||| slot.setWidth 64⟩

def fromRaw (value : BitVec 64) : Handle := ⟨value⟩

def generation (h : Handle) : BitVec 32 := (h.raw >>> SLOT_BITS).setWidth 32

def slot (h : Handle) : BitVec 32 := h.raw.setWidth 32

@[simp] theorem generation_new (g i : BitVec 32) : (new g i).generation = g := by
  apply BitVec.eq_of_getLsbD_eq
  intro j hj
  have h1 : 32 + j < 64 := by omega
  have h2 : 32 + j - 32 = j := by omega
  have h3 : ¬ 32 + j < 32 := by omega
  have h4 : j < 64 := by omega
  simp [generation, new, SLOT_BITS, hj, h1, h2, h3, h4]

@[simp] theorem slot_new (g i : BitVec 32) : (new g i).slot = i := by
  apply BitVec.eq_of_getLsbD_eq
  intro j hj
  simp [slot, new, SLOT_BITS, hj]

end Handle

/-- The closed result status of every capability operation. -/
inductive SysStatus where
  | ok | badCap | badMethod | denied | stale | wouldBlock | noMem | objFull | peerClosed | fault
deriving DecidableEq, Repr

/-- One table slot; a vacant slot holds no object. -/
structure SlotCore (O : Type*) where
  generation : BitVec 32
  rights : Rights
  object : Option O
deriving DecidableEq, Repr

/-- The per-principal authority table. -/
structure CapTable (O : Type*) where
  slots : List (SlotCore O)
  free : List (BitVec 32)
  cap : Nat
deriving DecidableEq, Repr

/-- `u32::checked_add(1)`. -/
def checkedSucc (g : BitVec 32) : Option (BitVec 32) :=
  if g = BitVec.allOnes 32 then none else some (g + 1#32)

namespace CapTable

variable {O : Type*}

def withCapacity (cap : Nat) : CapTable O := ⟨[], [], cap⟩

/-- Resolve `h` to its live slot index, fail-closed. -/
def live (t : CapTable O) (h : Handle) : Except SysStatus Nat :=
  let i := h.slot.toNat
  match t.slots[i]? with
  | none => .error .badCap
  | some s =>
      if s.object.isNone then .error .stale
      else if s.generation ≠ h.generation then .error .stale
      else .ok i

/-- Place `object` into a free or fresh slot; `none` when the table is at `cap`. -/
def alloc (t : CapTable O) (rights : Rights) (object : O) : Option Handle × CapTable O :=
  match t.free with
  | idx :: rest =>
      match t.slots[idx.toNat]? with
      | some s =>
          (some (Handle.new s.generation idx),
            { t with
              slots := t.slots.set idx.toNat { s with rights := rights, object := some object }
              free := rest })
      | none => (none, t)
  | [] =>
      if t.slots.length ≥ t.cap then (none, t)
      else
        -- `self.slots.len() as u32` truncates
        (some (Handle.new 1 (BitVec.ofNat 32 t.slots.length)),
          { t with slots := t.slots ++ [⟨1, rights, some object⟩] })

/-- Vacate slot `i`, bumping its generation, or retire it when that overflows. -/
def freeSlot (t : CapTable O) (i : Nat) : CapTable O :=
  match t.slots[i]? with
  | none => t
  | some s =>
      match checkedSucc s.generation with
      | some g =>
          { t with
            slots := t.slots.set i { s with generation := g, object := none }
            free := BitVec.ofNat 32 i :: t.free }
      | none => { t with slots := t.slots.set i { s with object := none } }

def attach (t : CapTable O) (parked : O × Rights) : Option Handle × CapTable O :=
  t.alloc parked.2 parked.1

def revoke (t : CapTable O) (h : Handle) : SysStatus × CapTable O :=
  match t.live h with
  | .ok i => (.ok, t.freeSlot i)
  | .error e => (e, t)

/-- The rights of an already-resolved slot. -/
def rightsAt (t : CapTable O) (i : Nat) : Rights :=
  match t.slots[i]? with
  | some s => s.rights
  | none => Rights.NONE

/-- The object of an already-resolved slot. -/
def objectAt (t : CapTable O) (i : Nat) : Option O :=
  match t.slots[i]? with
  | some s => s.object
  | none => none

/-- Duplicate `h`: a sibling with the same object and the same rights. -/
def dup (t : CapTable O) (h : Handle) : Option Handle × CapTable O :=
  match t.live h with
  | .error _ => (none, t)
  | .ok i =>
      match t.objectAt i with
      | none => (none, t)
      | some object => t.alloc (t.rightsAt i) object

/-- Narrow `h`: a new handle whose rights are `old & mask`. -/
def narrow (t : CapTable O) (h : Handle) (mask : Rights) : Option Handle × CapTable O :=
  match t.live h with
  | .error _ => (none, t)
  | .ok i =>
      match t.objectAt i with
      | none => (none, t)
      | some object => t.alloc ((t.rightsAt i).intersect mask) object

/-- Move `h` into `dst`: attach there first, vacate here only once it landed. -/
def transferTo (t : CapTable O) (h : Handle) (dst : CapTable O) :
    Option Handle × CapTable O × CapTable O :=
  match t.live h with
  | .error _ => (none, t, dst)
  | .ok i =>
      match t.objectAt i with
      | none => (none, t, dst)
      | some object =>
          match dst.attach (object, t.rightsAt i) with
          | (none, dst') => (none, t, dst')
          | (some moved, dst') => (some moved, t.freeSlot i, dst')

/-- The send half of a move: the object and rights out, the slot vacated. -/
def detach (t : CapTable O) (h : Handle) : Except SysStatus (O × Rights) × CapTable O :=
  match t.live h with
  | .error e => (.error e, t)
  | .ok i =>
      match t.objectAt i with
      | none => (.error .stale, t)
      | some object => (.ok (object, t.rightsAt i), t.freeSlot i)

/-! ## Resolution -/

theorem live_ok {t : CapTable O} {h : Handle} {i : Nat} :
    t.live h = .ok i ↔
      i = h.slot.toNat ∧ ∃ s, t.slots[i]? = some s ∧ s.object.isSome ∧
        s.generation = h.generation := by
  constructor
  · intro hl
    simp only [live] at hl
    split at hl
    · cases hl
    · rename_i s hs
      split at hl
      · cases hl
      · split at hl
        · cases hl
        · rename_i hobj hgen
          cases hl
          exact ⟨rfl, s, hs, by simpa [Option.isSome_iff_ne_none] using hobj, not_not.mp hgen⟩
  · rintro ⟨rfl, s, hs, hobj, hgen⟩
    simp [live, hs, hgen, Option.ne_none_iff_isSome.mpr hobj]

/-- A failed resolve never reports the status `Ok`. -/
theorem live_error_ne_ok {t : CapTable O} {h : Handle} {e : SysStatus}
    (hl : t.live h = .error e) : e ≠ .ok := by
  simp only [live] at hl
  split at hl
  · cases hl
    decide
  · split at hl
    · cases hl
      decide
    · split at hl
      · cases hl
        decide
      · cases hl

/-- Nor does it report `Denied`: that is the gate's answer. -/
theorem live_ne_denied {t : CapTable O} {h : Handle} : t.live h ≠ .error .denied := by
  intro hl
  simp only [live] at hl
  split at hl
  · cases hl
  · split at hl
    · cases hl
    · split at hl
      · cases hl
      · cases hl

/-- A resolved slot is occupied, so the `object.clone()?` after a `live` never
takes its `None` branch. -/
theorem objectAt_of_live {t : CapTable O} {h : Handle} {i : Nat} (hl : t.live h = .ok i) :
    ∃ s o, t.slots[i]? = some s ∧ s.object = some o ∧ t.objectAt i = some o ∧
      t.rightsAt i = s.rights := by
  obtain ⟨-, s, hs, hobj, -⟩ := live_ok.mp hl
  obtain ⟨o, ho⟩ := Option.isSome_iff_exists.mp hobj
  exact ⟨s, o, hs, ho, by simp [objectAt, hs, ho], by simp [rightsAt, hs]⟩

/-! ## The four shapes of change -/

/-- What one call can do to one table. -/
inductive Change (t : CapTable O) : CapTable O → Prop
  | same : Change t t
  | reuse {idx : BitVec 32} {rest : List (BitVec 32)} {s : SlotCore O} (r : Rights) (o : O) :
      t.free = idx :: rest → t.slots[idx.toNat]? = some s →
      Change t { t with
        slots := t.slots.set idx.toNat { s with rights := r, object := some o }
        free := rest }
  | fresh (r : Rights) (o : O) : t.free = [] → t.slots.length < t.cap →
      Change t { t with slots := t.slots ++ [⟨1, r, some o⟩] }
  | vacate {h : Handle} {i : Nat} : t.live h = .ok i → Change t (t.freeSlot i)

theorem alloc_change (t : CapTable O) (r : Rights) (o : O) : Change t (t.alloc r o).2 := by
  simp only [alloc]
  split
  · rename_i idx rest hfree
    split
    · rename_i s hs
      exact .reuse r o hfree hs
    · exact .same
  · rename_i hfree
    split
    · exact .same
    · rename_i hlen
      exact .fresh r o hfree (by omega)

theorem dup_change (t : CapTable O) (h : Handle) : Change t (t.dup h).2 := by
  simp only [dup]
  split
  · exact .same
  · split
    · exact .same
    · exact alloc_change t _ _

theorem narrow_change (t : CapTable O) (h : Handle) (mask : Rights) :
    Change t (t.narrow h mask).2 := by
  simp only [narrow]
  split
  · exact .same
  · split
    · exact .same
    · exact alloc_change t _ _

theorem revoke_change (t : CapTable O) (h : Handle) : Change t (t.revoke h).2 := by
  simp only [revoke]
  split
  · rename_i i hl
    exact .vacate hl
  · exact .same

theorem detach_change (t : CapTable O) (h : Handle) : Change t (t.detach h).2 := by
  simp only [detach]
  split
  · exact .same
  · rename_i i hl
    split
    · exact .same
    · exact .vacate hl

theorem transferTo_change (t dst : CapTable O) (h : Handle) :
    Change t (t.transferTo h dst).2.1 ∧ Change dst (t.transferTo h dst).2.2 := by
  simp only [transferTo]
  split
  · exact ⟨.same, .same⟩
  · rename_i i hl
    split
    · exact ⟨.same, .same⟩
    · rename_i o ho
      have hdst := alloc_change dst (t.rightsAt i) o
      split
      · rename_i dst' heq
        rw [attach] at heq
        exact ⟨.same, by rw [heq] at hdst; exact hdst⟩
      · rename_i moved dst' heq
        rw [attach] at heq
        exact ⟨.vacate hl, by rw [heq] at hdst; exact hdst⟩

/-! ## The table invariant -/

theorem checkedSucc_eq_some {g g' : BitVec 32} (h : checkedSucc g = some g') :
    g.toNat + 1 = g'.toNat := by
  simp only [checkedSucc] at h
  split at h
  · cases h
  · rename_i hne
    have hlt : g.toNat ≠ 2 ^ 32 - 1 := by
      intro hc
      exact hne (BitVec.eq_of_toNat_eq (by simp [hc]))
    have := g.isLt
    cases h
    simp only [BitVec.toNat_add, BitVec.toNat_ofNat]
    omega

theorem checkedSucc_eq_none {g : BitVec 32} (h : checkedSucc g = none) :
    g = BitVec.allOnes 32 := by
  simp only [checkedSucc] at h
  split at h
  · assumption
  · cases h

/-- The free list is duplicate-free, names vacant slots only and every vacant
slot whose generation can still be incremented; the table is within its
capacity. -/
structure Sound (t : CapTable O) : Prop where
  nodup : t.free.Nodup
  vacant : ∀ f ∈ t.free, ∃ s, t.slots[f.toNat]? = some s ∧ s.object = none
  listed : ∀ i s, t.slots[i]? = some s → s.object = none →
    s.generation ≠ BitVec.allOnes 32 → ∃ f ∈ t.free, f.toNat = i
  bounded : t.slots.length ≤ t.cap

theorem sound_withCapacity (cap : Nat) : Sound (withCapacity cap : CapTable O) where
  nodup := List.nodup_nil
  vacant := fun _ hf => absurd hf List.not_mem_nil
  listed := fun i s hs => by simp [withCapacity] at hs
  bounded := Nat.zero_le _

/-- `freeSlot` at an occupied slot, as the two branches of `checked_add`. -/
theorem freeSlot_cases {t : CapTable O} {i : Nat} {s : SlotCore O} (hs : t.slots[i]? = some s) :
    (∃ g, s.generation.toNat + 1 = g.toNat ∧ t.freeSlot i = { t with
        slots := t.slots.set i { s with generation := g, object := none }
        free := BitVec.ofNat 32 i :: t.free }) ∨
    (s.generation = BitVec.allOnes 32 ∧ t.freeSlot i = { t with
        slots := t.slots.set i { s with object := none } }) := by
  cases hg : checkedSucc s.generation with
  | some g => exact .inl ⟨g, checkedSucc_eq_some hg, by simp [freeSlot, hs, hg]⟩
  | none => exact .inr ⟨checkedSucc_eq_none hg, by simp [freeSlot, hs, hg]⟩

/-- The slot a handle resolves to is never on the free list. -/
theorem live_not_free {t : CapTable O} (ht : Sound t) {h : Handle} {i : Nat}
    (hl : t.live h = .ok i) : h.slot ∉ t.free := by
  intro hmem
  obtain ⟨rfl, s, hs, hobj, -⟩ := live_ok.mp hl
  obtain ⟨s', hs', hnone⟩ := ht.vacant _ hmem
  rw [hs] at hs'
  cases hs'
  simp [hnone] at hobj

/-- A free slot other than the one written stays vacant. -/
theorem Sound.vacant_set {t : CapTable O} (ht : Sound t) {k f : BitVec 32} (s : SlotCore O)
    (hf : f ∈ t.free) (hne : k ≠ f) :
    ∃ s', (t.slots.set k.toNat s)[f.toNat]? = some s' ∧ s'.object = none := by
  obtain ⟨s', hs', hnone⟩ := ht.vacant f hf
  have hidx : k.toNat ≠ f.toNat := fun he => hne (BitVec.eq_of_toNat_eq he)
  exact ⟨s', by rw [List.getElem?_set_ne hidx]; exact hs', hnone⟩

theorem Change.sound {t t' : CapTable O} (hc : Change t t') (ht : Sound t) : Sound t' := by
  cases hc with
  | same => exact ht
  | @reuse idx rest s r o hfree hs =>
      have hnd : idx ∉ rest ∧ rest.Nodup := by
        have := ht.nodup
        rwa [hfree, List.nodup_cons] at this
      refine ⟨hnd.2, ?_, ?_, by simpa using ht.bounded⟩
      · intro f hf
        have hfree' : f ∈ t.free := hfree ▸ List.mem_cons_of_mem _ hf
        exact ht.vacant_set _ hfree' fun he => hnd.1 (he ▸ hf)
      · intro i s' hs' hnone hgen
        by_cases he : idx.toNat = i
        · subst he
          rw [List.getElem?_set_self' , hs] at hs'
          cases hs'
          cases hnone
        · rw [List.getElem?_set_ne he] at hs'
          obtain ⟨f, hf, rfl⟩ := ht.listed i s' hs' hnone hgen
          rw [hfree] at hf
          rcases List.mem_cons.mp hf with rfl | hf
          · exact absurd rfl he
          · exact ⟨f, hf, rfl⟩
  | fresh r o hfree hlen =>
      refine ⟨ht.nodup, ?_, ?_, by simpa using Nat.succ_le_of_lt hlen⟩
      · intro f hf
        rw [hfree] at hf
        exact absurd hf List.not_mem_nil
      · intro i s' hs' hnone hgen
        rw [List.getElem?_append] at hs'
        split at hs'
        · exact ht.listed i s' hs' hnone hgen
        · rename_i hge
          obtain ⟨hlt, rfl⟩ := List.getElem?_eq_some_iff.mp hs'
          simp at hnone
  | @vacate h i hl =>
      have hnf := live_not_free ht hl
      obtain ⟨rfl, s, hs, hobj, -⟩ := live_ok.mp hl
      -- the two branches of `freeSlot` share the slots away from `h.slot`
      rcases freeSlot_cases hs with ⟨g, hg, he⟩ | ⟨hg, he⟩
      · rw [he]
        refine ⟨?_, ?_, ?_, by simpa using ht.bounded⟩
        · simpa using ⟨hnf, ht.nodup⟩
        · intro f hf
          rcases List.mem_cons.mp hf with rfl | hf
          · exact ⟨_, by rw [BitVec.ofNat_toNat, BitVec.setWidth_eq, List.getElem?_set_self', hs]; rfl, rfl⟩
          · exact ht.vacant_set _ hf fun he => hnf (he ▸ hf)
        · intro i s' hs' hnone hgen
          by_cases hi : h.slot.toNat = i
          · exact ⟨_, List.mem_cons_self, by simpa using hi⟩
          · rw [List.getElem?_set_ne hi] at hs'
            obtain ⟨f, hf, hfi⟩ := ht.listed i s' hs' hnone hgen
            exact ⟨f, List.mem_cons_of_mem _ hf, hfi⟩
      · rw [he]
        refine ⟨ht.nodup, ?_, ?_, by simpa using ht.bounded⟩
        · intro f hf
          exact ht.vacant_set _ hf fun he => hnf (he ▸ hf)
        · intro i s' hs' hnone hgen
          by_cases hi : h.slot.toNat = i
          · subst hi
            rw [List.getElem?_set_self', hs] at hs'
            cases hs'
            exact absurd hg hgen
          · rw [List.getElem?_set_ne hi] at hs'
            exact ht.listed i s' hs' hnone hgen

theorem Change.cap_eq {t t' : CapTable O} (hc : Change t t') : t'.cap = t.cap := by
  cases hc with
  | same => rfl
  | reuse => rfl
  | fresh => rfl
  | @vacate h i hl =>
      obtain ⟨-, s, hs, -⟩ := live_ok.mp hl
      rcases freeSlot_cases hs with ⟨g, -, he⟩ | ⟨-, he⟩ <;> rw [he]

/-! ## Generations -/

/-- Slots persist and no generation decreases. -/
def Grows (t t' : CapTable O) : Prop :=
  ∀ (i : Nat) (s : SlotCore O), t.slots[i]? = some s →
    ∃ s', t'.slots[i]? = some s' ∧ s.generation.toNat ≤ s'.generation.toNat

theorem Grows.refl (t : CapTable O) : Grows t t := fun _ s hs => ⟨s, hs, Nat.le_refl _⟩

theorem Grows.trans {t u v : CapTable O} (htu : Grows t u) (huv : Grows u v) : Grows t v := by
  intro i s hs
  obtain ⟨s', hs', hle⟩ := htu i s hs
  obtain ⟨s'', hs'', hle'⟩ := huv i s' hs'
  exact ⟨s'', hs'', Nat.le_trans hle hle'⟩

/-- Overwriting one slot without lowering its generation. -/
theorem grows_set {t : CapTable O} {i : Nat} {s s' : SlotCore O} {fr : List (BitVec 32)}
    (hs : t.slots[i]? = some s) (hle : s.generation.toNat ≤ s'.generation.toNat) :
    Grows t { t with slots := t.slots.set i s', free := fr } := by
  intro j u hu
  by_cases hj : i = j
  · subst hj
    rw [hs] at hu
    cases hu
    exact ⟨s', by rw [List.getElem?_set_self', hs]; rfl, hle⟩
  · exact ⟨u, by rw [List.getElem?_set_ne hj]; exact hu, Nat.le_refl _⟩

theorem Change.grows {t t' : CapTable O} (hc : Change t t') : Grows t t' := by
  cases hc with
  | same => exact Grows.refl t
  | reuse r o hfree hs => exact grows_set hs (Nat.le_refl _)
  | fresh r o hfree hlen =>
      intro i s hs
      have hi : i < t.slots.length := (List.getElem?_eq_some_iff.mp hs).1
      exact ⟨s, by rw [List.getElem?_append_left hi]; exact hs, Nat.le_refl _⟩
  | vacate hl =>
      obtain ⟨-, s, hs, -⟩ := live_ok.mp hl
      rcases freeSlot_cases hs with ⟨g, hg, he⟩ | ⟨-, he⟩
      · rw [he]
        exact grows_set hs (Nat.le_of_lt (Nat.lt_of_succ_le (Nat.le_of_eq hg)))
      · rw [he]
        exact grows_set hs (Nat.le_refl _)

/-- `h` can never resolve again: its slot moved past its generation, or was
retired at it. -/
def Dead (t : CapTable O) (h : Handle) : Prop :=
  ∃ s, t.slots[h.slot.toNat]? = some s ∧
    (h.generation.toNat < s.generation.toNat ∨
      (s.generation = BitVec.allOnes 32 ∧ s.object = none ∧ h.slot ∉ t.free))

theorem Dead.not_live {t : CapTable O} {h : Handle} (hd : Dead t h) (i : Nat) :
    t.live h ≠ .ok i := by
  intro hl
  obtain ⟨rfl, s, hs, hobj, hgen⟩ := live_ok.mp hl
  obtain ⟨s', hs', hd⟩ := hd
  rw [hs] at hs'
  cases hs'
  rcases hd with hlt | ⟨-, hnone, -⟩
  · rw [hgen] at hlt
    exact Nat.lt_irrefl _ hlt
  · simp [hnone] at hobj

/-- Vacating the slot `h` resolves to kills `h`. -/
theorem dead_of_freeSlot {t : CapTable O} (ht : Sound t) {h : Handle} {i : Nat}
    (hl : t.live h = .ok i) : Dead (t.freeSlot i) h := by
  have hnf := live_not_free ht hl
  obtain ⟨rfl, s, hs, hobj, hgen⟩ := live_ok.mp hl
  rcases freeSlot_cases hs with ⟨g, hg, he⟩ | ⟨hg, he⟩
  · rw [he]
    refine ⟨_, by rw [List.getElem?_set_self', hs]; rfl, .inl ?_⟩
    rw [← hgen]
    exact Nat.lt_of_succ_le (Nat.le_of_eq hg)
  · rw [he]
    exact ⟨{ s with object := none }, by rw [List.getElem?_set_self', hs]; rfl,
      .inr ⟨hg, rfl, hnf⟩⟩

/-- No change brings a dead handle back. -/
theorem Change.stays_dead {t t' : CapTable O} (hc : Change t t') {h : Handle}
    (hd : Dead t h) : Dead t' h := by
  obtain ⟨s, hs, hd⟩ := hd
  cases hc with
  | same => exact ⟨s, hs, hd⟩
  | @reuse idx rest u r o hfree hu =>
      by_cases hi : idx.toNat = h.slot.toNat
      · rw [hi, hs] at hu
        cases hu
        refine ⟨_, by rw [hi, List.getElem?_set_self', hs]; rfl, .inl ?_⟩
        rcases hd with hlt | ⟨-, -, hnf⟩
        · exact hlt
        · refine absurd ?_ hnf
          rw [hfree, BitVec.eq_of_toNat_eq hi]
          exact List.mem_cons_self
      · refine ⟨s, by rw [List.getElem?_set_ne hi]; exact hs, ?_⟩
        rcases hd with hlt | ⟨hg, hnone, hnf⟩
        · exact .inl hlt
        · refine .inr ⟨hg, hnone, fun hm => hnf ?_⟩
          rw [hfree]
          exact List.mem_cons_of_mem _ hm
  | fresh r o hfree hlen =>
      have hi : h.slot.toNat < t.slots.length := (List.getElem?_eq_some_iff.mp hs).1
      exact ⟨s, by rw [List.getElem?_append_left hi]; exact hs, hd⟩
  | @vacate h' i hl =>
      obtain ⟨rfl, u, hu, hobj, -⟩ := live_ok.mp hl
      by_cases hi : h'.slot.toNat = h.slot.toNat
      · rw [hi, hs] at hu
        cases hu
        have hlt : h.generation.toNat < s.generation.toNat := by
          rcases hd with hlt | ⟨-, hnone, -⟩
          · exact hlt
          · simp [hnone] at hobj
        obtain ⟨s', hs', hle⟩ := (Change.vacate hl).grows _ s hs
        exact ⟨s', hs', .inl (Nat.lt_of_lt_of_le hlt hle)⟩
      · have hne : h'.slot ≠ h.slot := fun e => hi (by rw [e])
        rcases freeSlot_cases hu with ⟨g, -, he⟩ | ⟨-, he⟩
        · rw [he]
          refine ⟨s, by rw [List.getElem?_set_ne hi]; exact hs, ?_⟩
          rcases hd with hlt | ⟨hg, hnone, hnf⟩
          · exact .inl hlt
          · refine .inr ⟨hg, hnone, ?_⟩
            simpa using ⟨hne.symm, hnf⟩
        · rw [he]
          exact ⟨s, by rw [List.getElem?_set_ne hi]; exact hs, hd⟩

/-- Slot `i` is vacant and not on the free list. -/
def Stranded (t : CapTable O) (i : Nat) : Prop :=
  ∃ s, t.slots[i]? = some s ∧ s.object = none ∧ ∀ f ∈ t.free, f.toNat ≠ i

/-- A slot leaves circulation only by being vacated at the last generation. -/
theorem Change.stranded {t t' : CapTable O} (hc : Change t t') {i : Nat} (hi : Stranded t' i) :
    Stranded t i ∨
      ∃ s, t.slots[i]? = some s ∧ s.object.isSome ∧ s.generation = BitVec.allOnes 32 := by
  obtain ⟨s', hs', hnone, hfree'⟩ := hi
  cases hc with
  | same => exact .inl ⟨s', hs', hnone, hfree'⟩
  | @reuse idx rest s r o hfree hs =>
      by_cases he : idx.toNat = i
      · subst he
        rw [List.getElem?_set_self', hs] at hs'
        rw [← Option.some.inj hs'] at hnone
        cases hnone
      · rw [List.getElem?_set_ne he] at hs'
        refine .inl ⟨s', hs', hnone, fun f hf => ?_⟩
        rw [hfree] at hf
        rcases List.mem_cons.mp hf with rfl | hf
        · exact he
        · exact hfree' f hf
  | fresh r o hfree hlen =>
      rw [List.getElem?_append] at hs'
      split at hs'
      · exact .inl ⟨s', hs', hnone, hfree'⟩
      · obtain ⟨hlt, rfl⟩ := List.getElem?_eq_some_iff.mp hs'
        simp at hnone
  | @vacate h j hl =>
      obtain ⟨rfl, s, hs, hobj, -⟩ := live_ok.mp hl
      rcases freeSlot_cases hs with ⟨g, -, he⟩ | ⟨hg, he⟩
      · rw [he] at hs' hfree'
        have hne : h.slot.toNat ≠ i := by
          have := hfree' _ List.mem_cons_self
          simpa using this
        rw [List.getElem?_set_ne hne] at hs'
        exact .inl ⟨s', hs', hnone, fun f hf => hfree' f (List.mem_cons_of_mem _ hf)⟩
      · rw [he] at hs' hfree'
        by_cases hi : h.slot.toNat = i
        · subst hi
          exact .inr ⟨s, hs, hobj, hg⟩
        · rw [List.getElem?_set_ne hi] at hs'
          exact .inl ⟨s', hs', hnone, hfree'⟩

/-! ## Where `alloc` puts an object -/

/-- The slot the next `alloc` fills, if any. -/
def placed (t : CapTable O) : Option Nat :=
  match t.free with
  | idx :: _ => if idx.toNat < t.slots.length then some idx.toNat else none
  | [] => if t.slots.length ≥ t.cap then none else some t.slots.length

theorem alloc_of_placed_none {t : CapTable O} (hp : t.placed = none) (r : Rights) (o : O) :
    t.alloc r o = (none, t) := by
  simp only [placed] at hp
  simp only [alloc]
  split at hp
  · split at hp
    · cases hp
    · rename_i idx _ hfree hlt
      rw [List.getElem?_eq_none (Nat.le_of_not_lt hlt)]
  · split at hp
    · rename_i hge
      rw [if_pos hge]
    · cases hp

/-- `alloc` fills the placed slot and leaves every other slot as it was. -/
theorem alloc_of_placed {t : CapTable O} {i : Nat} (hp : t.placed = some i) (r : Rights) (o : O) :
    ∃ h t' g, t.alloc r o = (some h, t') ∧ t'.slots[i]? = some ⟨g, r, some o⟩ ∧
      ∀ j, j ≠ i → t'.slots[j]? = t.slots[j]? := by
  simp only [placed] at hp
  simp only [alloc]
  split at hp
  · split at hp
    · rename_i idx rest hfree hlt
      cases hp
      rw [List.getElem?_eq_getElem hlt]
      refine ⟨_, _, _, rfl, by rw [List.getElem?_set_self hlt], fun j hj => ?_⟩
      rw [List.getElem?_set_ne hj.symm]
    · cases hp
  · split at hp
    · cases hp
    · rename_i hge
      cases hp
      rw [if_neg hge]
      refine ⟨_, _, 1, rfl, by simp, fun j hj => ?_⟩
      by_cases hlt : j < t.slots.length
      · rw [List.getElem?_append_left hlt]
      · rw [List.getElem?_append_right (Nat.le_of_not_lt hlt),
          List.getElem?_eq_none (Nat.le_of_not_lt hlt)]
        exact List.getElem?_eq_none (by simp only [List.length_singleton]; omega)

/-- The handle `alloc` answers resolves to the slot it filled, as long as that
slot's number fits the handle's 32-bit field. -/
theorem alloc_live {t : CapTable O} {i : Nat} (hp : t.placed = some i) (hi : i < 2 ^ 32)
    (r : Rights) (o : O) : ∃ h, (t.alloc r o).1 = some h ∧ (t.alloc r o).2.live h = .ok i := by
  simp only [placed] at hp
  simp only [alloc]
  split at hp
  · split at hp
    · rename_i idx rest hfree hlt
      cases hp
      rw [List.getElem?_eq_getElem hlt]
      refine ⟨_, rfl, live_ok.mpr ⟨by simp, _, by rw [List.getElem?_set_self hlt], rfl, by simp⟩⟩
    · cases hp
  · split at hp
    · cases hp
    · rename_i hge
      cases hp
      rw [if_neg hge]
      have hmod : t.slots.length % 2 ^ 32 = t.slots.length := Nat.mod_eq_of_lt hi
      refine ⟨_, rfl, live_ok.mpr ⟨?_, ⟨1, r, some o⟩, by simp, rfl, by simp⟩⟩
      rw [Handle.slot_new, BitVec.toNat_ofNat, hmod]

/-- A handle that does not resolve, or a full destination: nothing happens. -/
theorem dup_of_unplaced {t : CapTable O} {h : Handle}
    (hf : (∀ p, t.live h ≠ .ok p) ∨ t.placed = none) : (t.dup h).2 = t := by
  simp only [dup]
  split
  · rfl
  · rename_i p hl
    split
    · rfl
    · rw [alloc_of_placed_none (hf.resolve_left fun hn => hn p hl)]

theorem narrow_of_unplaced {t : CapTable O} {h : Handle} {mask : Rights}
    (hf : (∀ p, t.live h ≠ .ok p) ∨ t.placed = none) : (t.narrow h mask).2 = t := by
  simp only [narrow]
  split
  · rfl
  · rename_i p hl
    split
    · rfl
    · rw [alloc_of_placed_none (hf.resolve_left fun hn => hn p hl)]

theorem transferTo_of_unplaced {t dst : CapTable O} {h : Handle}
    (hf : (∀ p, t.live h ≠ .ok p) ∨ dst.placed = none) : (t.transferTo h dst).2 = (t, dst) := by
  simp only [transferTo]
  split
  · rfl
  · rename_i p hl
    split
    · rfl
    · rw [attach, alloc_of_placed_none (hf.resolve_left fun hn => hn p hl)]

/-- Vacating empties the slot and leaves every other slot as it was. -/
theorem freeSlot_slots (t : CapTable O) (i : Nat) :
    (∀ s, (t.freeSlot i).slots[i]? = some s → s.object = none) ∧
      ∀ j, j ≠ i → (t.freeSlot i).slots[j]? = t.slots[j]? := by
  cases hs : t.slots[i]? with
  | none => simp [freeSlot, hs]
  | some s =>
      rcases freeSlot_cases hs with ⟨g, -, he⟩ | ⟨-, he⟩ <;>
        · rw [he]
          refine ⟨fun s' hs' => ?_, fun j hj => by rw [List.getElem?_set_ne hj.symm]⟩
          rw [List.getElem?_set_self', hs] at hs'
          cases hs'
          rfl

end CapTable

end Yuva.Caps
