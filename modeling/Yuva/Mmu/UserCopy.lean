/-
# `Yuva.Mmu.UserCopy` — a user copy moves the bytes of the translated range

The translation is described entry by entry, with no reference to the walk: `tableOn` are the
tables on the way of an address, `entryOn` their entries, and a `UserPage` has them present and
user at every level, no large page, the leaf writable for a write and its frame in the window.
The walk finds the translation, or stops, exactly so (`walkUser_ok_iff`).

A chunk stays in its page, so what holds of its first byte holds of all (`translation_chunk`),
and the loop over the chunks is an induction with the bytes done so far as its invariant
(`Fetched`, `Delivered`).  A copy into memory changes the memory the later walks read.  It is the
copy of the range as it was translated before as long as no byte lands in an entry that a later
page is translated by (`Apart`).  A table that maps itself breaks this, and a table out of the
window breaks any copy through it (`not_forall_exact`).
-/
import Yuva.Mmu.Uaccess

namespace Yuva.Mmu

open Yuva.Bytes Yuva.Checked Yuva.Machine Yuva.Overlay

/-! ## The translation -/

def levelShift : Nat → Nat
  | 0 => SHIFT_512G
  | 1 => SHIFT_1G
  | 2 => SHIFT_2M
  | _ => SHIFT_4K

section Translation

variable (ram : Ram) (root va : Nat)

/-- The tables on the way of an address; after four levels its frame. -/
def tableOn : Nat → Nat
  | 0 => entryAddr root
  | n + 1 => entryAddr (entryAt ram (tableOn n + 8 * levelIndex va (levelShift n)))

def slotOn (n : Nat) : Nat := tableOn ram root va n + 8 * levelIndex va (levelShift n)

def entryOn (n : Nat) : Nat := entryAt ram (slotOn ram root va n)

def translation : Nat := tableOn ram root va 4 + va % PAGE_SIZE

/-- Present and user at every level, no large page, and writable for a write. -/
@[mk_iff] structure Mapped (write : Bool) : Prop where
  present : ∀ n < 4, entryOn ram root va n &&& PTE_P ≠ 0
  user : ∀ n < 4, entryOn ram root va n &&& PTE_US ≠ 0
  small : ∀ n < 3, entryOn ram root va n &&& PTE_PS = 0
  writable : write = true → entryOn ram root va 3 &&& PTE_RW ≠ 0

/-- Mapped for the user, to a frame in the window. -/
def UserPage (write : Bool) : Prop := Mapped ram root va write ∧ tableOn ram root va 4 < IDENTITY_LIMIT

/-- The tables on the way lie in the window. -/
def Aliased : Prop := ∀ n < 4, tableOn ram root va n < IDENTITY_LIMIT

instance (write : Bool) : Decidable (Mapped ram root va write) := decidable_of_iff' _ (mapped_iff ram root va write)

instance (write : Bool) : Decidable (UserPage ram root va write) := inferInstanceAs (Decidable (_ ∧ _))

instance : Decidable (Aliased ram root va) := inferInstanceAs (Decidable (∀ n < 4, _))

end Translation

section Walk

variable {ram : Ram} {root va : Nat}

theorem tableOn_dvd : ∀ n, PAGE_SIZE ∣ tableOn ram root va n
  | 0 => entryAddr_dvd _
  | _ + 1 => entryAddr_dvd _

/-- A table in the window lies in it whole. -/
theorem slot_in_window {table shift : Nat} (h : PAGE_SIZE ∣ table) :
    table + 8 * levelIndex va shift + 8 ≤ IDENTITY_LIMIT ↔ table < IDENTITY_LIMIT := by
  have hidx := levelIndex_lt va shift
  rw [PAGE_SIZE] at h
  rw [IDENTITY_LIMIT]
  omega

theorem readEntry_ok_iff {slot entry : Nat} :
    readEntry ram slot = .ok entry ↔ slot + 8 ≤ IDENTITY_LIMIT ∧ entry = entryAt ram slot := by
  rw [readEntry]
  split_ifs with hin
  · rw [Except.ok.injEq, eq_comm]
    exact (and_iff_right hin).symm
  · exact iff_of_false (fun h => nomatch h) fun h => hin h.1

/-- Level `n` lets the walk through. -/
def Passed (ram : Ram) (root va n : Nat) : Prop :=
  tableOn ram root va n < IDENTITY_LIMIT ∧ entryOn ram root va n &&& PTE_P ≠ 0 ∧
    entryOn ram root va n &&& PTE_US ≠ 0 ∧ entryOn ram root va n &&& PTE_PS = 0

theorem walkInterior_ok_iff {n next : Nat} :
    walkInterior ram va (tableOn ram root va n) (levelShift n) = .ok next ↔
      Passed ram root va n ∧ next = tableOn ram root va (n + 1) := by
  have hentry : entryAt ram (tableOn ram root va n + 8 * levelIndex va (levelShift n)) =
      entryOn ram root va n := rfl
  have hnext : tableOn ram root va (n + 1) = entryAddr (entryOn ram root va n) := rfl
  rw [walkInterior, bind_eq_ok]
  simp only [readEntry_ok_iff, slot_in_window (tableOn_dvd n), hentry, hnext]
  constructor
  · rintro ⟨entry, ⟨htable, rfl⟩, h⟩
    split_ifs at h with hp hus hps
    exact ⟨⟨htable, hp, hus, not_not.1 hps⟩, (Except.ok.inj h).symm⟩
  · rintro ⟨⟨htable, hp, hus, hps⟩, rfl⟩
    exact ⟨_, ⟨htable, rfl⟩, by rw [if_neg hp, if_neg hus, if_neg (not_not.2 hps)]⟩

theorem interior_ok_iff (m : Nat) {table : Nat} :
    ((List.range m).map levelShift).foldlM (walkInterior ram va) (tableOn ram root va 0) = .ok table ↔
      (∀ n < m, Passed ram root va n) ∧ table = tableOn ram root va m := by
  induction m generalizing table with
  | zero => simp [pure, Except.pure, eq_comm]
  | succ m ih =>
      rw [List.range_succ, List.map_append, List.foldlM_append, bind_eq_ok]
      simp only [ih, List.map_singleton, List.foldlM_cons, List.foldlM_nil, bind_pure]
      constructor
      · rintro ⟨_, ⟨hpass, rfl⟩, h⟩
        obtain ⟨hm, rfl⟩ := walkInterior_ok_iff.1 h
        exact ⟨Nat.forall_lt_succ_right.2 ⟨hpass, hm⟩, rfl⟩
      · rintro ⟨hpass, rfl⟩
        obtain ⟨hpass, hm⟩ := Nat.forall_lt_succ_right.1 hpass
        exact ⟨_, ⟨hpass, rfl⟩, walkInterior_ok_iff.2 ⟨hm, rfl⟩⟩

theorem classifyLeaf_ok_iff {flags : Nat} {write : Bool} {u : Unit} :
    classifyLeaf flags write = .ok u ↔
      flags &&& PTE_P ≠ 0 ∧ flags &&& PTE_US ≠ 0 ∧ (write = true → flags &&& PTE_RW ≠ 0) := by
  rw [classifyLeaf]
  split_ifs with hp hus hrw
  · exact iff_of_false (fun h => nomatch h) fun h => h.1 hp
  · exact iff_of_false (fun h => nomatch h) fun h => h.2.1 hus
  · exact iff_of_false (fun h => nomatch h) fun h => h.2.2 hrw.1 hrw.2
  · exact iff_of_true rfl ⟨hp, hus, fun hw hzero => hrw ⟨hw, hzero⟩⟩

theorem entryAddr_or (e n : Nat) : entryAddr e ||| (n &&& PAGE_OFF_MASK) = entryAddr e + n % PAGE_SIZE := by
  obtain ⟨k, hk⟩ := entryAddr_dvd e
  have hmod : n &&& PAGE_OFF_MASK = n % PAGE_SIZE := Nat.and_two_pow_sub_one_eq_mod n 12
  have hlt : n % PAGE_SIZE < 2 ^ 12 := Nat.mod_lt n (by decide)
  rw [hmod, hk]
  exact (Nat.two_pow_add_eq_or_of_lt hlt k).symm

/-- The walk answers the translation, and exactly where there is one that it can read. -/
theorem walkUser_ok_iff {write : Bool} {pa : Nat} :
    walkUser ram root va write = .ok pa ↔
      Mapped ram root va write ∧ Aliased ram root va ∧ pa = translation ram root va := by
  have hlevels : INTERIOR = (List.range 3).map levelShift := rfl
  have hroot : root &&& ENTRY_ADDR_MASK = tableOn ram root va 0 := rfl
  have hleaf : entryAt ram (tableOn ram root va 3 + 8 * levelIndex va SHIFT_4K) = entryOn ram root va 3 := rfl
  rw [walkUser, hlevels, hroot]
  simp only [bind_eq_ok, interior_ok_iff, readEntry_ok_iff, mapError_ok_iff, classifyLeaf_ok_iff]
  constructor
  · rintro ⟨_, ⟨hpass, rfl⟩, _, ⟨hin, rfl⟩, _, ⟨hp, hus, hrw⟩, h⟩
    rw [slot_in_window (tableOn_dvd 3)] at hin
    refine ⟨⟨Nat.forall_lt_succ_right.2 ⟨fun n hn => (hpass n hn).2.1, hp⟩,
      Nat.forall_lt_succ_right.2 ⟨fun n hn => (hpass n hn).2.2.1, hus⟩, fun n hn => (hpass n hn).2.2.2, hrw⟩,
      Nat.forall_lt_succ_right.2 ⟨fun n hn => (hpass n hn).1, hin⟩, ?_⟩
    rw [← Except.ok.inj h, entryAddr_or]
    rfl
  · rintro ⟨⟨hp, hus, hps, hrw⟩, htable, rfl⟩
    have hpass : ∀ n < 3, Passed ram root va n := fun n hn =>
      ⟨htable n (hn.trans (by decide)), hp n (hn.trans (by decide)), hus n (hn.trans (by decide)), hps n hn⟩
    refine ⟨_, ⟨hpass, rfl⟩, _, ⟨(slot_in_window (tableOn_dvd 3)).2 (htable 3 (by decide)), rfl⟩, (),
      ⟨hp 3 (by decide), hus 3 (by decide), hrw⟩, ?_⟩
    rw [entryAddr_or]
    rfl

end Walk

/-! ## Walks that meet the same entries -/

/-- Two walks, in two memories perhaps, along the same tables and entries. -/
structure SameWalk (ram : Ram) (root va : Nat) (ram' : Ram) (va' : Nat) : Prop where
  table : ∀ n ≤ 4, tableOn ram' root va' n = tableOn ram root va n
  entry : ∀ n < 4, entryOn ram' root va' n = entryOn ram root va n

/-- A user page that the walk can read its way to. -/
def Translated (ram : Ram) (root va : Nat) (write : Bool) : Prop :=
  UserPage ram root va write ∧ Aliased ram root va

section Same

variable {ram ram' : Ram} {root va va' : Nat}

theorem SameWalk.symm (h : SameWalk ram root va ram' va') : SameWalk ram' root va' ram va :=
  ⟨fun n hn => (h.table n hn).symm, fun n hn => (h.entry n hn).symm⟩

theorem SameWalk.translated {write : Bool} (h : SameWalk ram root va ram' va')
    (ht : Translated ram root va write) : Translated ram' root va' write := by
  obtain ⟨⟨⟨hp, hus, hps, hrw⟩, hframe⟩, halias⟩ := ht
  refine ⟨⟨⟨fun n hn => ?_, fun n hn => ?_, fun n hn => ?_, fun hw => ?_⟩, ?_⟩, fun n hn => ?_⟩
  · rw [h.entry n hn]
    exact hp n hn
  · rw [h.entry n hn]
    exact hus n hn
  · rw [h.entry n (hn.trans (by decide))]
    exact hps n hn
  · rw [h.entry 3 (by decide)]
    exact hrw hw
  · rw [h.table 4 le_rfl]
    exact hframe
  · rw [h.table n hn.le]
    exact halias n hn

theorem levelIndex_congr (h : va' / PAGE_SIZE = va / PAGE_SIZE) {shift : Nat} (hshift : 12 ≤ shift) :
    levelIndex va' shift = levelIndex va shift := by
  obtain ⟨k, rfl⟩ := Nat.exists_eq_add_of_le hshift
  rw [levelIndex_eq, levelIndex_eq, pow_add, ← Nat.div_div_eq_div_mul, ← Nat.div_div_eq_div_mul]
  exact congrArg (· / 2 ^ k % 512) h

theorem levelShift_ge : ∀ n, 12 ≤ levelShift n
  | 0 | 1 | 2 => by decide
  | _ + 3 => le_rfl

/-- Addresses of one page are walked alike. -/
theorem sameWalk_of_page (h : va' / PAGE_SIZE = va / PAGE_SIZE) : SameWalk ram root va ram va' := by
  have htable : ∀ n, tableOn ram root va' n = tableOn ram root va n := by
    intro n
    induction n with
    | zero => rfl
    | succ n ih => rw [tableOn, tableOn, ih, levelIndex_congr h (levelShift_ge n)]
  refine ⟨fun n _ => htable n, fun n _ => ?_⟩
  rw [entryOn, entryOn, slotOn, slotOn, htable, levelIndex_congr h (levelShift_ge n)]

/-- Memories that agree on the entries of a walk are walked alike. -/
theorem sameWalk_of_slots
    (h : ∀ n < 4, ∀ k < 8, ram' (slotOn ram root va n + k) = ram (slotOn ram root va n + k)) :
    SameWalk ram root va ram' va := by
  have hread : ∀ n < 4, entryAt ram' (slotOn ram root va n) = entryAt ram (slotOn ram root va n) := by
    intro n hn
    rw [entryAt, entryAt, List.map_congr_left fun k hk => h n hn k (List.mem_range.1 hk)]
  have htable : ∀ n ≤ 4, tableOn ram' root va n = tableOn ram root va n := by
    intro n hn
    induction n with
    | zero => rfl
    | succ n ih =>
        rw [tableOn, tableOn, ih (Nat.le_of_lt hn)]
        exact congrArg entryAddr (hread n hn)
  refine ⟨htable, fun n hn => ?_⟩
  rw [entryOn, slotOn, htable n hn.le]
  exact hread n hn

end Same

/-! ## One chunk -/

/-- The address of byte `i` of the range at `uva`; it wraps. -/
def byteVa (uva i : Nat) : Nat := wrapU 64 (uva + i)

/-- Which page of the range byte `i` lies on. -/
def pageNo (uva i : Nat) : Nat := (uva % PAGE_SIZE + i) / PAGE_SIZE

/-- The length of the chunk from byte `i` on. -/
def chunkLen (uva len i : Nat) : Nat := min (PAGE_SIZE - byteVa uva i % PAGE_SIZE) (len - i)

section Chunk

variable {ram : Ram} {root uva len i : Nat}

theorem spanFrom_of_lt (h : i < len) :
    spanFrom uva len i = (i, byteVa uva i, chunkLen uva len i) :: spanFrom uva len (i + chunkLen uva len i) := by
  have hmod : byteVa uva i &&& PAGE_OFF_MASK = byteVa uva i % PAGE_SIZE := Nat.and_two_pow_sub_one_eq_mod _ 12
  rw [spanFrom, dif_pos h, chunkLen, ← hmod]
  rfl

theorem spanFrom_of_ge (h : len ≤ i) : spanFrom uva len i = [] := by
  rw [spanFrom, dif_neg (Nat.not_lt.2 h)]

theorem chunkLen_pos (h : i < len) : 0 < chunkLen uva len i := by
  have hmod : byteVa uva i % PAGE_SIZE < PAGE_SIZE := Nat.mod_lt _ (by decide)
  rw [chunkLen]
  omega

/-- A chunk does not leave its page: the addresses go on without a wrap. -/
theorem byteVa_chunk {k : Nat} (hk : k < chunkLen uva len i) :
    byteVa uva (i + k) = byteVa uva i + k ∧ byteVa uva i % PAGE_SIZE + k < PAGE_SIZE := by
  rw [chunkLen] at hk
  rw [byteVa, wrapU, PAGE_SIZE] at *
  rw [byteVa, wrapU]
  omega

theorem sameWalk_chunk {k : Nat} (hk : k < chunkLen uva len i) :
    SameWalk ram root (byteVa uva i) ram (byteVa uva (i + k)) := by
  obtain ⟨hva, hin⟩ := byteVa_chunk hk
  refine sameWalk_of_page ?_
  rw [hva, PAGE_SIZE] at *
  omega

/-- The bytes of a chunk are translated one behind the other. -/
theorem translation_chunk {k : Nat} (hk : k < chunkLen uva len i) :
    translation ram root (byteVa uva (i + k)) = translation ram root (byteVa uva i) + k := by
  obtain ⟨hva, hin⟩ := byteVa_chunk hk
  rw [translation, translation, (sameWalk_chunk hk).table 4 le_rfl, hva, PAGE_SIZE] at *
  omega

/-- What a chunk leaves, if its page is there: the move at its translation. -/
def moved (ram : Ram) (root uva : Nat) (toUser : Bool) (kbuf : List UInt8) (i n : Nat) : Ram × List UInt8 :=
  let pa := translation ram root (byteVa uva i)
  if toUser then (store ram pa (slice kbuf i n), kbuf) else (ram, splice kbuf i (load ram pa n))

theorem copyChunk_ok_iff {toUser : Bool} {kbuf : List UInt8} {st : Ram × List UInt8} :
    copyChunk root toUser (ram, kbuf) (i, byteVa uva i, chunkLen uva len i) = .ok st ↔
      Translated ram root (byteVa uva i) toUser ∧ st = moved ram root uva toUser kbuf i (chunkLen uva len i) := by
  -- A frame below the bound has its whole page below it.
  have hwindow : translation ram root (byteVa uva i) ≥ IDENTITY_LIMIT ∨
      translation ram root (byteVa uva i) + chunkLen uva len i > IDENTITY_LIMIT ↔
        ¬tableOn ram root (byteVa uva i) 4 < IDENTITY_LIMIT := by
    have hdvd : PAGE_SIZE ∣ tableOn ram root (byteVa uva i) 4 := tableOn_dvd 4
    have hlen : chunkLen uva len i ≤ PAGE_SIZE - byteVa uva i % PAGE_SIZE := min_le_left _ _
    rw [translation, PAGE_SIZE, IDENTITY_LIMIT] at *
    omega
  simp only [copyChunk, bind_eq_ok, walkUser_ok_iff]
  constructor
  · rintro ⟨_, ⟨hmapped, halias, rfl⟩, h⟩
    by_cases hframe : tableOn ram root (byteVa uva i) 4 < IDENTITY_LIMIT
    · rw [if_neg (mt hwindow.1 (not_not.2 hframe))] at h
      refine ⟨⟨⟨hmapped, hframe⟩, halias⟩, ?_⟩
      rw [moved]
      split_ifs at h ⊢ <;> exact (Except.ok.inj h).symm
    · rw [if_pos (hwindow.2 hframe)] at h
      exact nomatch h
  · rintro ⟨⟨⟨hmapped, hframe⟩, halias⟩, rfl⟩
    refine ⟨_, ⟨hmapped, halias, rfl⟩, ?_⟩
    rw [if_neg (mt hwindow.1 (not_not.2 hframe)), moved]
    split_ifs <;> rfl

end Chunk

/-! ## The loop -/

/-- Byte `i` is the first of its page in the range, or the first of the range. -/
def PageStart (uva i : Nat) : Prop := ∀ j < i, pageNo uva j < pageNo uva i

section Loop

variable {root uva len : Nat} {toUser : Bool}

/-- A chunk that is not the last ends at its page's end. -/
theorem pageStart_next {i : Nat} (h : i + chunkLen uva len i < len) : PageStart uva (i + chunkLen uva len i) := by
  intro j hj
  have hlen : chunkLen uva len i = PAGE_SIZE - byteVa uva i % PAGE_SIZE := by
    rw [chunkLen] at h ⊢
    omega
  rw [hlen, byteVa, wrapU] at hj ⊢
  rw [pageNo, pageNo, PAGE_SIZE] at *
  omega

/-- What holds before every chunk and is kept by every chunk that succeeds holds after the copy;
    a chunk that fails shows `bad`. -/
theorem copyChunks_rule (Inv : Nat → Ram × List UInt8 → Prop) (bad : Prop)
    (hok : ∀ i st st', i < len → PageStart uva i → Inv i st →
      copyChunk root toUser st (i, byteVa uva i, chunkLen uva len i) = .ok st' → Inv (i + chunkLen uva len i) st')
    (herror : ∀ i st e, i < len → PageStart uva i → Inv i st →
      copyChunk root toUser st (i, byteVa uva i, chunkLen uva len i) = .error e → bad)
    {st : Ram × List UInt8} (hinit : Inv 0 st) (hlen : st.2.length = len) :
    (∃ st', copySpan root uva toUser st = (.ok (), st') ∧ Inv len st') ∨
      ∃ e st', copySpan root uva toUser st = (.error e, st') ∧ bad := by
  have hrun : ∀ m i st, len - i = m → i ≤ len → (i < len → PageStart uva i) → Inv i st →
      (∃ st', copyChunks root toUser (spanFrom uva len i) st = (.ok (), st') ∧ Inv len st') ∨
        ∃ e st', copyChunks root toUser (spanFrom uva len i) st = (.error e, st') ∧ bad := by
    intro m
    induction m using Nat.strongRecOn with
    | ind m ih =>
      intro i st hm hle hstart hinv
      obtain rfl | hlt := hle.eq_or_lt
      · rw [spanFrom_of_ge le_rfl]
        exact .inl ⟨st, rfl, hinv⟩
      rw [spanFrom_of_lt hlt, copyChunks]
      cases hchunk : copyChunk root toUser st (i, byteVa uva i, chunkLen uva len i) with
      | error e => exact .inr ⟨e, st, rfl, herror i st e hlt (hstart hlt) hinv hchunk⟩
      | ok st' =>
          have hpos : 0 < chunkLen uva len i := chunkLen_pos hlt
          have hfit : chunkLen uva len i ≤ len - i := min_le_right _ _
          exact ih _ (by omega) _ st' rfl (by omega) pageStart_next (hok i st st' hlt (hstart hlt) hinv hchunk)
  rw [copySpan, hlen]
  exact hrun _ 0 st rfl (Nat.zero_le _) (fun _ j hj => absurd hj (Nat.not_lt_zero j)) hinit

end Loop

section Copies

variable {ram : Ram} {root uva : Nat}

/-- The byte that byte `i` of the range is translated to. -/
def userByte (ram : Ram) (root uva i : Nat) : UInt8 := ram (translation ram root (byteVa uva i))

/-- The first `i` bytes are read; the rest of the buffer is as it was. -/
structure Fetched (ram : Ram) (root uva : Nat) (dst : List UInt8) (i : Nat) (st : Ram × List UInt8) : Prop where
  memory : st.1 = ram
  pages : ∀ j < i, Translated ram root (byteVa uva j) false
  bytes : st.2 = (List.range i).map (userByte ram root uva) ++ dst.drop i

theorem pages_next {P : Nat → Prop} {i n : Nat} (h : ∀ j < i, P j) (h' : ∀ k < n, P (i + k)) :
    ∀ j < i + n, P j := by
  intro j hj
  obtain hlt | hge := Nat.lt_or_ge j i
  · exact h j hlt
  · obtain ⟨k, rfl⟩ := Nat.exists_eq_add_of_le hge
    exact h' k (by omega)

theorem load_chunk {len i : Nat} :
    load ram (translation ram root (byteVa uva i)) (chunkLen uva len i) =
      (List.range (chunkLen uva len i)).map fun k => userByte ram root uva (i + k) := by
  rw [load]
  refine List.map_congr_left fun k hk => ?_
  rw [userByte, translation_chunk (List.mem_range.1 hk)]

theorem splice_drop {front : List UInt8} {dst bytes : List UInt8} {i : Nat} (hfront : front.length = i) :
    splice (front ++ dst.drop i) i bytes = front ++ bytes ++ dst.drop (i + bytes.length) := by
  rw [splice, ← hfront, List.take_left, List.drop_append, List.drop_of_length_le (Nat.le_add_right _ _),
    List.nil_append, Nat.add_sub_cancel_left, List.drop_drop]

theorem fetched_chunk {dst : List UInt8} {i : Nat} {st st' : Ram × List UInt8} (h : Fetched ram root uva dst i st)
    (hchunk : copyChunk root false st (i, byteVa uva i, chunkLen uva dst.length i) = .ok st') :
    Fetched ram root uva dst (i + chunkLen uva dst.length i) st' := by
  obtain ⟨now, kbuf⟩ := st
  obtain ⟨(rfl : now = ram), hpages, (rfl : kbuf = _)⟩ := h
  obtain ⟨hpage, rfl⟩ := copyChunk_ok_iff.1 hchunk
  refine ⟨rfl, pages_next hpages fun k hk => (sameWalk_chunk hk).translated hpage, ?_⟩
  have hfront : ((List.range i).map (userByte now root uva)).length = i := by simp
  rw [moved, if_neg Bool.false_ne_true, splice_drop hfront, load_chunk, List.range_add, List.map_append,
    List.map_map, List.length_map, List.length_range]
  rfl

/-- The chunk fails on a page that is not there. -/
theorem not_translated_of_error {toUser : Bool} {kbuf : List UInt8} {i n : Nat} {e : Stop}
    (h : copyChunk root toUser (ram, kbuf) (i, byteVa uva i, chunkLen uva n i) = .error e) :
    ¬Translated ram root (byteVa uva i) toUser := by
  intro hpage
  rw [copyChunk_ok_iff.2 ⟨hpage, rfl⟩] at h
  exact nomatch h

theorem copyFromUser_cases (ram : Ram) (root uva : Nat) (dst : List UInt8) :
    ((copyFromUser ram root uva dst).1 = .ok () ∧
        Fetched ram root uva dst dst.length (ram, (copyFromUser ram root uva dst).2)) ∨
      ((copyFromUser ram root uva dst).1 ≠ .ok () ∧ ∃ i < dst.length, ¬Translated ram root (byteVa uva i) false) := by
  have hrun := copyChunks_rule (Fetched ram root uva dst)
    (∃ i < dst.length, ¬Translated ram root (byteVa uva i) false)
    (fun i st st' _ _ h hchunk => fetched_chunk h hchunk)
    (fun i st e hlt _ h hchunk => ⟨i, hlt, not_translated_of_error (by rw [← h.memory]; exact hchunk)⟩)
    (⟨rfl, fun j hj => absurd hj (Nat.not_lt_zero j), rfl⟩ : Fetched ram root uva dst 0 (ram, dst)) rfl
  rw [copyFromUser]
  obtain ⟨⟨now, kbuf⟩, hrun, hfetched⟩ | ⟨e, st', hrun, hbad⟩ := hrun
  · rw [hrun]
    obtain ⟨rfl, hpages, hbytes⟩ := hfetched
    exact .inl ⟨rfl, rfl, hpages, hbytes⟩
  · rw [hrun]
    exact .inr ⟨fun h => (nomatch h), hbad⟩

/-! ### Into memory -/

/-- The first `i` bytes of `src` are where the range was translated to in `ram`, and nothing else
    has changed. -/
structure Delivered (ram : Ram) (root uva : Nat) (src : List UInt8) (i : Nat) (now : Ram) : Prop where
  /-- A byte that none of the range is translated to is as it was. -/
  frame : ∀ a, (∀ j < i, translation ram root (byteVa uva j) ≠ a) → now a = ram a
  /-- A byte that some are translated to is the last of them. -/
  last : ∀ j < i,
    (∀ k < i, j < k → translation ram root (byteVa uva k) ≠ translation ram root (byteVa uva j)) →
    src[j]? = some (now (translation ram root (byteVa uva j)))

/-- No byte of the range lies in an entry that a later page of it is translated by. -/
def Apart (ram : Ram) (root uva len : Nat) : Prop :=
  ∀ i j, pageNo uva i < pageNo uva j → j < len → UserPage ram root (byteVa uva i) true →
    ∀ n < 4, ∀ k < 8, translation ram root (byteVa uva i) ≠ slotOn ram root (byteVa uva j) n + k

theorem store_inside {pa k : Nat} {bytes : List UInt8} {b : UInt8} (h : bytes[k]? = some b) :
    store ram pa bytes (pa + k) = b := by
  have hlook : Piece.look (pa, bytes) (pa + k) = bytes[k]? := Piece.look_add
  rw [store, hlook, h, Option.getD_some]

theorem store_outside {pa a : Nat} {bytes : List UInt8} (h : ∀ k < bytes.length, pa + k ≠ a) :
    store ram pa bytes a = ram a := by
  have hlook : Piece.look (pa, bytes) a = none := by
    rw [Piece.look_eq_none]
    by_contra hin
    obtain ⟨k, hk⟩ := Nat.exists_eq_add_of_le (Nat.le_of_not_lt fun hlt => hin (.inl hlt))
    refine h k ?_ hk.symm
    by_contra hge
    exact hin (.inr (hk ▸ Nat.add_le_add_left (Nat.le_of_not_lt hge) pa))
  rw [store, hlook, Option.getD_none]

/-- The next chunk's page is walked as it was before the copy. -/
theorem sameWalk_delivered {src : List UInt8} {i : Nat} {now : Ram} (hapart : Apart ram root uva src.length)
    (hi : i < src.length) (hstart : PageStart uva i) (hpages : ∀ j < i, Translated ram root (byteVa uva j) true)
    (h : Delivered ram root uva src i now) : SameWalk ram root (byteVa uva i) now (byteVa uva i) :=
  sameWalk_of_slots fun n hn k hk =>
    h.frame _ fun j hj => hapart j i (hstart j hj) hi (hpages j hj).1 n hn k hk

theorem delivered_chunk {src : List UInt8} {i n : Nat} {now : Ram} (hfit : i + n ≤ src.length)
    (htrans : ∀ k < n, translation ram root (byteVa uva (i + k)) = translation ram root (byteVa uva i) + k)
    (h : Delivered ram root uva src i now) :
    Delivered ram root uva src (i + n) (store now (translation ram root (byteVa uva i)) (slice src i n)) := by
  have hlen : (slice src i n).length = n := length_slice hfit
  refine ⟨fun a ha => ?_, fun j hj hlast => ?_⟩
  · rw [store_outside fun k hk => ?_]
    · exact h.frame a fun j hj => ha j (by omega)
    · rw [← htrans k (hlen ▸ hk)]
      exact ha _ (by omega)
  · obtain hlt | hge := Nat.lt_or_ge j i
    · rw [store_outside fun k hk => ?_]
      · exact h.last j hlt fun k hk => hlast k (by omega)
      · rw [← htrans k (hlen ▸ hk)]
        exact hlast _ (by omega) (by omega)
    · obtain ⟨k, rfl⟩ := Nat.exists_eq_add_of_le hge
      have hbyte : (slice src i n)[k]? = src[i + k]? := by
        rw [slice, List.getElem?_take_of_lt (by omega), List.getElem?_drop]
      have hsrc := List.getElem?_eq_getElem (show i + k < src.length by omega)
      rw [htrans k (by omega), store_inside (hbyte.trans hsrc), hsrc]

/-- The state of a copy into memory before byte `i`. -/
structure Delivering (ram : Ram) (root uva : Nat) (src : List UInt8) (i : Nat) (st : Ram × List UInt8) : Prop where
  kept : st.2 = src
  pages : ∀ j < i, Translated ram root (byteVa uva j) true
  bytes : Delivered ram root uva src i st.1

theorem delivering_chunk {src : List UInt8} {i : Nat} {st st' : Ram × List UInt8}
    (hapart : Apart ram root uva src.length) (hi : i < src.length) (hstart : PageStart uva i)
    (h : Delivering ram root uva src i st)
    (hchunk : copyChunk root true st (i, byteVa uva i, chunkLen uva src.length i) = .ok st') :
    Delivering ram root uva src (i + chunkLen uva src.length i) st' := by
  obtain ⟨now, kbuf⟩ := st
  obtain ⟨(rfl : kbuf = src), hpages, hbytes⟩ := h
  have hsame := sameWalk_delivered hapart hi hstart hpages hbytes
  obtain ⟨hpage, rfl⟩ := copyChunk_ok_iff.1 hchunk
  have htr : translation now root (byteVa uva i) = translation ram root (byteVa uva i) := by
    rw [translation, translation, hsame.table 4 le_rfl]
  have hfit : i + chunkLen uva kbuf.length i ≤ kbuf.length := by
    have : chunkLen uva kbuf.length i ≤ kbuf.length - i := min_le_right _ _
    omega
  rw [moved, if_pos rfl, htr]
  refine ⟨rfl, pages_next hpages fun k hk => ?_, delivered_chunk hfit (fun k hk => translation_chunk hk) hbytes⟩
  exact (sameWalk_chunk hk).translated (hsame.symm.translated hpage)

theorem copyToUser_cases {src : List UInt8} (hapart : Apart ram root uva src.length) :
    ((copyToUser ram root uva src).1 = .ok () ∧ (∀ i < src.length, Translated ram root (byteVa uva i) true) ∧
        Delivered ram root uva src src.length (copyToUser ram root uva src).2) ∨
      ((copyToUser ram root uva src).1 ≠ .ok () ∧ ∃ i < src.length, ¬Translated ram root (byteVa uva i) true) := by
  have hrun := copyChunks_rule (Delivering ram root uva src)
    (∃ i < src.length, ¬Translated ram root (byteVa uva i) true)
    (fun i st st' hlt hstart h hchunk => delivering_chunk hapart hlt hstart h hchunk)
    (fun i st e hlt hstart h hchunk => ⟨i, hlt, fun hpage => not_translated_of_error hchunk
      ((sameWalk_delivered hapart hlt hstart h.pages h.bytes).translated hpage)⟩)
    (⟨rfl, fun j hj => absurd hj (Nat.not_lt_zero j), fun a _ => rfl, fun j hj => absurd hj (Nat.not_lt_zero j)⟩ :
      Delivering ram root uva src 0 (ram, src)) rfl
  rw [copyToUser]
  obtain ⟨st', hrun, -, hpages, hbytes⟩ | ⟨e, st', hrun, hbad⟩ := hrun
  · rw [hrun]
    exact .inl ⟨rfl, hpages, hbytes⟩
  · rw [hrun]
    exact .inr ⟨fun h => (nomatch h), hbad⟩

/-- A copy succeeds exactly when every byte of the range is on a user page that can be walked to.
    One from the user then has the bytes the range is translated to; one to the user, if the range
    keeps clear of its own tables, has put the bytes there and nowhere else. -/
theorem user_copies_exact (ram : Ram) (root uva : Nat) (buf : List UInt8) :
    ((copyFromUser ram root uva buf).1 = .ok () ↔
        ∀ i < buf.length, UserPage ram root (byteVa uva i) false ∧ Aliased ram root (byteVa uva i)) ∧
      ((copyFromUser ram root uva buf).1 = .ok () →
        (copyFromUser ram root uva buf).2 =
          (List.range buf.length).map fun i => ram (translation ram root (byteVa uva i))) ∧
      (Apart ram root uva buf.length →
        ((copyToUser ram root uva buf).1 = .ok () ↔
            ∀ i < buf.length, UserPage ram root (byteVa uva i) true ∧ Aliased ram root (byteVa uva i)) ∧
          ((copyToUser ram root uva buf).1 = .ok () →
            Delivered ram root uva buf buf.length (copyToUser ram root uva buf).2)) := by
  refine ⟨?_, fun hok => ?_, fun hapart => ⟨?_, fun hok => ?_⟩⟩
  · obtain ⟨hok, hfetched⟩ | ⟨hfail, i, hi, hnot⟩ := copyFromUser_cases ram root uva buf
    · exact iff_of_true hok hfetched.pages
    · exact iff_of_false hfail fun h => hnot (h i hi)
  · obtain ⟨-, hfetched⟩ | ⟨hfail, -⟩ := copyFromUser_cases ram root uva buf
    · have hbytes := hfetched.bytes
      rw [List.drop_length, List.append_nil] at hbytes
      exact hbytes
    · exact absurd hok hfail
  · obtain ⟨hok, hpages, -⟩ | ⟨hfail, i, hi, hnot⟩ := copyToUser_cases hapart
    · exact iff_of_true hok hpages
    · exact iff_of_false hfail fun h => hnot (h i hi)
  · obtain ⟨-, -, hbytes⟩ | ⟨hfail, -⟩ := copyToUser_cases hapart
    · exact hbytes
    · exact absurd hok hfail

/-- Two neighbouring pages on frames that are not neighbours. -/
def twoPages : Ram :=
  [(0x1000, 0x2007), (0x2000, 0x3007), (0x3000, 0x4007), (0x4000, 0x8007), (0x4008, 0x7007)].foldl
    (fun ram e => store ram e.1 (le 8 e.2)) fun _ => 0

theorem two_pages_copied :
    (copyToUser twoPages 0x1000 0xFFE [1, 2, 3, 4]).1 = .ok () ∧
      Delivered twoPages 0x1000 0xFFE [1, 2, 3, 4] 4 (copyToUser twoPages 0x1000 0xFFE [1, 2, 3, 4]).2 := by
  have hclear : ∀ j < 4, ∀ i < j, pageNo 0xFFE i < pageNo 0xFFE j → ∀ n < 4, ∀ k < 8,
      translation twoPages 0x1000 (byteVa 0xFFE i) ≠ slotOn twoPages 0x1000 (byteVa 0xFFE j) n + k := by
    decide +kernel
  obtain ⟨-, -, h⟩ := user_copies_exact twoPages 0x1000 0xFFE [1, 2, 3, 4]
  have hbefore : ∀ i j, pageNo 0xFFE i < pageNo 0xFFE j → i < j := fun i j hij =>
    Nat.lt_of_not_le fun hle => Nat.not_lt.2 (Nat.div_le_div_right (Nat.add_le_add_left hle _)) hij
  obtain ⟨hok, hbytes⟩ := h fun i j hij hj _ => hclear j hj i (hbefore i j hij) hij
  have hdone := hok.2 (by decide +kernel)
  exact ⟨hdone, hbytes hdone⟩

end Copies

/-! ## Tables in the range, tables out of the window -/

/-- Every entry of every table is `entry`. -/
def uniform (entry : Nat) : Ram := fun a => (le 8 entry).getD (a % 8) 0

theorem entryAt_uniform {entry slot : Nat} (hslot : 8 ∣ slot) (hentry : entry < 2 ^ 64) :
    entryAt (uniform entry) slot = entry := by
  have hbytes : ((List.range 8).map fun k => uniform entry (slot + k)) = le 8 entry := by
    refine List.ext_getElem (by simp) fun k hk _ => ?_
    have hlt : k < 8 := by simpa using hk
    have hmod : (slot + k) % 8 = k := by omega
    simp [uniform, hmod, List.getElem?_eq_getElem (show k < (le 8 entry).length by simpa using hlt)]
  rw [entryAt, hbytes, unle_le]
  exact Nat.mod_eq_of_lt hentry

theorem slotOn_dvd {ram : Ram} {root va n : Nat} : 8 ∣ slotOn ram root va n := by
  have hdvd : PAGE_SIZE ∣ tableOn ram root va n := tableOn_dvd n
  rw [PAGE_SIZE] at hdvd
  rw [slotOn]
  omega

theorem userPage_uniform {entry root va : Nat} {write : Bool} (hentry : entry < 2 ^ 64) (hp : entry &&& PTE_P ≠ 0)
    (hus : entry &&& PTE_US ≠ 0) (hps : entry &&& PTE_PS = 0) (hrw : entry &&& PTE_RW ≠ 0)
    (hframe : entryAddr entry < IDENTITY_LIMIT) : UserPage (uniform entry) root va write := by
  have hon : ∀ n, entryOn (uniform entry) root va n = entry := fun n => entryAt_uniform slotOn_dvd hentry
  refine ⟨⟨fun n _ => ?_, fun n _ => ?_, fun n _ => ?_, fun _ => ?_⟩, ?_⟩
  · rw [hon]
    exact hp
  · rw [hon]
    exact hus
  · rw [hon]
    exact hps
  · rw [hon]
    exact hrw
  · exact (congrArg entryAddr (hon 3)).trans_lt hframe

/-- One table that maps itself at every level. -/
def mirror : Ram := uniform 0x1007

/-- Tables that alternate between a low frame and one beyond the window. -/
def far : Ram := fun a => if a < IDENTITY_LIMIT then uniform 0x40000007 a else uniform 0x5007 a

theorem spanPages_mirror : spanPages 0x1FEFF8 9 = [(0, 0x1FEFF8, 8), (8, 0x1FF000, 1)] := by
  rw [spanPages, spanFrom_of_lt (by decide), spanFrom_of_lt (by decide), spanFrom_of_ge (by decide)]
  rfl

/-- A copy into the table it goes through unmaps its own next page, and one through a table out
    of the window does not come back. -/
theorem not_forall_exact :
    (¬∀ ram root uva src, (copyToUser ram root uva src).1 = .ok () ↔
        ∀ i < src.length, UserPage ram root (byteVa uva i) true) ∧
      ¬∀ ram root uva dst, (copyFromUser ram root uva dst).1 = .ok () ↔
        ∀ i < dst.length, UserPage ram root (byteVa uva i) false := by
  refine ⟨fun h => ?_, fun h => ?_⟩
  · have hok := (h mirror 0x1000 0x1FEFF8 (List.replicate 9 0)).2 fun i _ =>
      userPage_uniform (by decide) (by decide) (by decide) (by decide) (by decide) (by decide)
    have hstop : (copyToUser mirror 0x1000 0x1FEFF8 (List.replicate 9 0)).1 = .error (.fault .notPresent) := by
      rw [copyToUser, copySpan, List.length_replicate, spanPages_mirror]
      decide +kernel
    rw [hstop] at hok
    exact nomatch hok
  · have huser : UserPage far 0x1000 (byteVa 0 0) false := by decide +kernel
    have hok := (h far 0x1000 0 [0]).2 fun i hi => (Nat.lt_one_iff.1 hi) ▸ huser
    obtain ⟨-, hfetched⟩ | ⟨hfail, -⟩ := copyFromUser_cases far 0x1000 0 [0]
    · have hwindow := (hfetched.pages 0 (by decide)).2 1 (by decide)
      exact absurd hwindow (by decide +kernel)
    · exact hfail hok

end Yuva.Mmu
