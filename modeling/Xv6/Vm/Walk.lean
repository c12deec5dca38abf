import Xv6.Vm.Alloc

/-!
# Two-level page tables

`table d i` is the page table that the directory `d` has for the index `i`, and `pte d v` the entry
for the page number `v`, 0 where there is no table.  `Tables` and `Dir` say that the roles of the
pages fit the entries of `d`.

`walkpgdir` and `mappages` take pages for tables (`Maps`): they write into free pages, the directory
and its tables only.
-/

namespace Xv6.Vm

open Function

/-! ## Entries -/

abbrev Present (pte : Nat) : Prop := pte &&& PTE_P ≠ 0

theorem present_iff (w : Nat) : Present w ↔ w % 2 = 1 := by
  unfold Present
  rw [Nat.and_one_is_mod]
  omega

theorem not_present_zero : ¬ Present 0 := by decide

/-- `pa | perm | PTE_P` for the address of the page `f`. -/
def mkpte (f perm : Nat) : Nat := PGSIZE * f ||| perm ||| PTE_P

section
variable {f perm : Nat}

theorem mkpte_eq (hp : perm < 4096) : mkpte f perm = 4096 * f + (perm ||| 1) := by
  have hlt : perm ||| 1 < 2 ^ 12 := Nat.or_lt_two_pow hp (by decide)
  unfold mkpte
  rw [Nat.or_assoc]
  exact (Nat.two_pow_add_eq_or_of_lt hlt f).symm

theorem or_one_lt (hp : perm < 4096) : perm ||| 1 < 4096 := Nat.or_lt_two_pow (n := 12) hp (by decide)

theorem pteAddr_mkpte (hp : perm < 4096) : pteAddr (mkpte f perm) = f := by
  have hlt := or_one_lt hp
  rw [mkpte_eq hp]
  show (4096 * f + (perm ||| 1)) / 4096 = f
  omega

theorem pteFlags_eq (w : Nat) : pteFlags w = w % 4096 := Nat.and_two_pow_sub_one_eq_mod w 12

theorem pteFlags_mkpte (hp : perm < 4096) : pteFlags (mkpte f perm) = perm ||| 1 := by
  have hlt := or_one_lt hp
  rw [pteFlags_eq, mkpte_eq hp]
  omega

theorem present_mkpte (hp : perm < 4096) : Present (mkpte f perm) := by
  have hodd : (perm ||| 1) % 2 = 1 := by
    rw [← Nat.and_one_is_mod, Nat.and_or_distrib_right]
    have : perm &&& 1 = 0 ∨ perm &&& 1 = 1 := by
      rw [Nat.and_one_is_mod]
      omega
    rcases this with h | h <;> rw [h] <;> rfl
  rw [present_iff, mkpte_eq hp]
  omega

theorem mkpte_lt (hp : perm < 4096) (hf : f < 2 ^ 20) : mkpte f perm < 2 ^ 32 := by
  have hlt := or_one_lt hp
  rw [mkpte_eq hp]
  omega

end

theorem pdx_page {v : Nat} (hv : v < 2 ^ 20) : pdx (4096 * v) = v / 1024 := by
  unfold pdx
  omega

theorem ptx_page (v : Nat) : ptx (4096 * v) = v % 1024 := by
  unfold ptx
  omega

/-! ## Tables and entries of a directory -/

namespace Mem

def table (s : Mem) (d i : Nat) : Option Nat :=
  if Present (s.entry d i) then some (pteAddr (s.entry d i)) else none

def pte (s : Mem) (d v : Nat) : Nat :=
  match s.table d (v / 1024) with
  | none => 0
  | some t => s.entry t (v % 1024)

section
variable {s s' : Mem} {d i t v : Nat}

theorem table_of_entry (h : s'.entry d i = s.entry d i) : s'.table d i = s.table d i := by
  unfold table
  rw [h]

theorem table_some (h : s.table d i = some t) :
    Present (s.entry d i) ∧ pteAddr (s.entry d i) = t := by
  unfold table at h
  split at h
  · next hp => exact ⟨hp, Option.some.inj h⟩
  · cases h

theorem pte_of_table (h : s.table d (v / 1024) = some t) : s.pte d v = s.entry t (v % 1024) := by
  unfold pte
  rw [h]

theorem pte_of_none (h : s.table d (v / 1024) = none) : s.pte d v = 0 := by
  unfold pte
  rw [h]

theorem pte_lt (s : Mem) (d v : Nat) : s.pte d v < 2 ^ 32 := by
  unfold pte
  split
  · exact Nat.two_pow_pos 32
  · exact s.entry_lt ..

theorem exists_table (h : Present (s.pte d v)) : ∃ t, s.table d (v / 1024) = some t := by
  cases ht : s.table d (v / 1024) with
  | some t => exact ⟨t, rfl⟩
  | none =>
    rw [pte_of_none ht] at h
    exact absurd h not_present_zero

/-- A directory whose pages are the same has the same entries. -/
theorem pte_congr (hd : s'.page d = s.page d)
    (ht : ∀ t, s.table d (v / 1024) = some t → s'.page t = s.page t) :
    s'.pte d v = s.pte d v := by
  have htab := table_of_entry (entry_of_page hd (v / 1024))
  unfold pte
  rw [htab]
  cases h : s.table d (v / 1024) with
  | none => rfl
  | some t => exact entry_of_page (ht t h) _

end

end Mem

/-- The roles fit the tables of `d`. -/
structure Tables (s : Mem) (own : Nat → Role) (d : Nat) : Prop where
  self : own d = .dir
  table : ∀ t i, own t = .table d i ↔ i < 1024 ∧ s.table d i = some t

/-- The roles fit the tables and the user pages of `d`. -/
structure Dir (s : Mem) (own : Nat → Role) (d : Nat) : Prop extends Tables s own d where
  user : ∀ f v, own f = .user d v ↔ v < 2 ^ 19 ∧ Present (s.pte d v) ∧ pteAddr (s.pte d v) = f

section
variable {s s' : Mem} {own own' : Nat → Role} {d i t v w f : Nat}

theorem Tables.ne (h : Tables s own d) (hi : i < 1024) (ht : s.table d i = some t) : t ≠ d := by
  rintro rfl
  have := (h.table t i).2 ⟨hi, ht⟩
  rw [h.self] at this
  cases this

theorem Tables.inj (h : Tables s own d) {j : Nat} (hi : i < 1024) (hj : j < 1024)
    (ht : s.table d i = some t) (ht' : s.table d j = some t) : i = j := by
  have h1 := (h.table t i).2 ⟨hi, ht⟩
  rw [(h.table t j).2 ⟨hj, ht'⟩] at h1
  cases h1
  rfl

/-- Same pages of `d` and the same roles of them: the same directory. -/
theorem Tables.congr (h : Tables s own d)
    (hpage : ∀ f, f = d ∨ (∃ i, own f = .table d i) → s'.page f = s.page f)
    (hown : ∀ f i, own' f = .table d i ↔ own f = .table d i) (hself : own' d = .dir) :
    Tables s' own' d ∧ (∀ i, s'.table d i = s.table d i) ∧
      ∀ v < 2 ^ 20, s'.pte d v = s.pte d v := by
  have htab : ∀ i, s'.table d i = s.table d i := fun i =>
    Mem.table_of_entry (Mem.entry_of_page (hpage d (.inl rfl)) i)
  refine ⟨⟨hself, fun t i => ?_⟩, htab, fun v hv => ?_⟩
  · rw [hown, h.table, htab]
  · refine Mem.pte_congr (hpage d (.inl rfl)) fun t ht => hpage t (.inr ⟨v / 1024, ?_⟩)
    exact (h.table t _).2 ⟨by omega, ht⟩

theorem Dir.congr (h : Dir s own d)
    (hpage : ∀ f, f = d ∨ (∃ i, own f = .table d i) → s'.page f = s.page f)
    (htable : ∀ f i, own' f = .table d i ↔ own f = .table d i)
    (huser : ∀ f v, own' f = .user d v ↔ own f = .user d v) (hself : own' d = .dir) :
    Dir s' own' d ∧ ∀ v < 2 ^ 20, s'.pte d v = s.pte d v := by
  obtain ⟨htabs, -, hpte⟩ := h.toTables.congr hpage htable hself
  refine ⟨⟨htabs, fun f v => ?_⟩, hpte⟩
  rw [huser, h.user]
  constructor
  · rintro ⟨hv, hp⟩
    rw [← hpte v (by omega)] at hp
    exact ⟨hv, hp⟩
  · rintro ⟨hv, hp⟩
    rw [hpte v (by omega)] at hp
    exact ⟨hv, hp⟩

/-! ## One entry of a table -/

/-- Writing an entry of a table of `d` changes this entry of `d` only. -/
theorem Tables.setEntry (h : Tables s own d) (hv : v < 2 ^ 20) (ht : s.table d (v / 1024) = some t)
    (hw : w < 2 ^ 32) : Tables (s.setEntry t (v % 1024) w) own d ∧
      (∀ i, (s.setEntry t (v % 1024) w).table d i = s.table d i) ∧
      ∀ u < 2 ^ 20, (s.setEntry t (v % 1024) w).pte d u = if u = v then w else s.pte d u := by
  have hne := h.ne (by omega) ht
  have hpage : ∀ g, g ≠ t → (s.setEntry t (v % 1024) w).page g = s.page g := fun g hg =>
    s.setPage_of_ne t _ hg
  have htab : ∀ i, (s.setEntry t (v % 1024) w).table d i = s.table d i := fun i =>
    Mem.table_of_entry (Mem.entry_of_page (hpage d hne.symm) i)
  refine ⟨⟨h.self, fun t' i => ?_⟩, htab, fun u hu => ?_⟩
  · rw [htab]
    exact h.table t' i
  · by_cases he : u = v
    · subst he
      rw [if_pos rfl, Mem.pte_of_table ((htab _).trans ht), s.entry_setEntry_self t _ hw]
    · rw [if_neg he]
      cases hu' : s.table d (u / 1024) with
      | none => rw [Mem.pte_of_none hu', Mem.pte_of_none ((htab _).trans hu')]
      | some t' =>
        rw [Mem.pte_of_table hu', Mem.pte_of_table ((htab _).trans hu')]
        by_cases htt : t' = t
        · subst htt
          have hdiv := h.inj (by omega) (by omega) hu' ht
          apply s.entry_setEntry_of_ne
          omega
        · exact Mem.entry_of_page (hpage t' htt) _

/-- Clearing or replacing the page of a user entry. -/
theorem Dir.setEntry (h : Dir s own d) (hv : v < 2 ^ 19) (ht : s.table d (v / 1024) = some t)
    (hw : w < 2 ^ 32) (hown : ∀ f i, own' f = .table d i ↔ own f = .table d i)
    (hself : own' d = .dir)
    (huser : ∀ f u, own' f = .user d u ↔
      (u ≠ v ∧ own f = .user d u) ∨ (u = v ∧ Present w ∧ pteAddr w = f)) :
    Dir (s.setEntry t (v % 1024) w) own' d := by
  obtain ⟨htabs, htab, hpte⟩ := h.toTables.setEntry (by omega) ht hw
  refine ⟨⟨hself, fun t' i => ?_⟩, fun f u => ?_⟩
  · rw [hown, h.table, htab]
  · rw [huser, h.user]
    by_cases hu : u < 2 ^ 19
    · rw [hpte u (by omega)]
      by_cases he : u = v
      · subst he
        rw [if_pos rfl]
        simp only [ne_eq, not_true_eq_false, false_and, false_or, true_and, hu]
      · rw [if_neg he]
        simp only [ne_eq, he, not_false_eq_true, true_and, false_and, or_false]
    · have hne : u ≠ v := by omega
      simp only [hu, hne, false_and, and_false, or_false]

end

/-! ## Taking pages for tables -/

/-- Only free pages, the directory and its tables are written, and pages that were free may be
tables of the directory now. -/
structure Maps (d : Nat) (s : Mem) (own : Nat → Role) (s' : Mem) (own' : Nat → Role) : Prop where
  page : ∀ f, own f ≠ .free → f ≠ d → (∀ i, own f ≠ .table d i) → s'.page f = s.page f
  own : ∀ f, own' f = own f ∨ (own f = .free ∧ ∃ i, own' f = .table d i)

/-- The number of tables that `d` has. -/
def Mem.ntab (s : Mem) (d : Nat) : Nat :=
  ((Finset.range 1024).filter fun i => s.table d i ≠ none).card

section
variable {s s₁ s' : Mem} {own own₁ own' : Nat → Role} {l l' : List Nat} {d i t v : Nat}

theorem Maps.refl (d : Nat) (s : Mem) (own : Nat → Role) : Maps d s own s own :=
  ⟨fun _ _ _ _ => rfl, fun _ => .inl rfl⟩

theorem Maps.own_eq (h : Maps d s own s' own') {f : Nat} (hf : own f ≠ .free) : own' f = own f :=
  (h.own f).resolve_right fun hfree => hf hfree.1

theorem Maps.trans (h : Maps d s own s₁ own₁) (h' : Maps d s₁ own₁ s' own') :
    Maps d s own s' own' := by
  constructor
  · intro f hfree hd htab
    have ho := h.own_eq hfree
    rw [h'.page f (by rwa [ho]) hd (by rwa [ho]), h.page f hfree hd htab]
  · intro f
    rcases h.own f with ho | ⟨hfree, i, hi⟩
    · rcases h'.own f with ho' | ⟨hfree, i, hi⟩
      · exact .inl (ho'.trans ho)
      · exact .inr ⟨ho ▸ hfree, i, hi⟩
    · have ho' := h'.own_eq (f := f) (by rw [hi]; nofun)
      exact .inr ⟨hfree, i, ho'.trans hi⟩

theorem walkpgdir_false (s : Mem) (d va : Nat) :
    walkpgdir d va false s = .ok ((s.table d (pdx va)).map fun t => (t, ptx va), s) := by
  show (if Present (s.entry d (pdx va)) then _ else _ : VM _) s = _
  unfold Mem.table
  split
  · rfl
  · rfl

theorem walkpgdir_present (ht : s.table d (pdx v) = some t) (alloc : Bool) :
    walkpgdir d v alloc s = .ok (some (t, ptx v), s) := by
  obtain ⟨hp, rfl⟩ := Mem.table_some ht
  show (if Present (s.entry d (pdx v)) then _ else _ : VM _) s = _
  rw [if_pos hp]
  rfl

theorem not_present_of_none (ht : s.table d i = none) : ¬ Present (s.entry d i) := by
  intro hp
  unfold Mem.table at ht
  rw [if_pos hp] at ht
  cases ht

/-- The page `t` is taken from the list, cleared and made the table for the index `i`. -/
def Mem.addTable (s : Mem) (d i t : Nat) : Mem :=
  ((s.popped t).memset t 0).setEntry d i (PGSIZE * t ||| PTE_P ||| PTE_W ||| PTE_U)

theorem walkpgdir_dry (ht : s.table d (pdx v) = none) (hk : kalloc s = .ok (none, s.pass)) :
    walkpgdir d v true s = .ok (none, s.pass) := by
  show (if Present (s.entry d (pdx v)) then _ else _ : VM _) s = _
  rw [if_neg (not_present_of_none ht), if_neg (by decide)]
  exact seq_ok hk

theorem walkpgdir_alloc (ht : s.table d (pdx v) = none) (hk : kalloc s = .ok (some t, s.popped t)) :
    walkpgdir d v true s = .ok (some (t, ptx v), s.addTable d (pdx v) t) := by
  show (if Present (s.entry d (pdx v)) then _ else _ : VM _) s = _
  rw [if_neg (not_present_of_none ht), if_neg (by decide)]
  exact seq_ok hk

theorem tableWord_eq (t : Nat) : PGSIZE * t ||| PTE_P ||| PTE_W ||| PTE_U = 4096 * t + 7 := by
  rw [Nat.or_assoc, Nat.or_assoc]
  exact (Nat.two_pow_add_eq_or_of_lt (i := 12) (b := 7) (by decide) t).symm

end

section
variable [Layout] {s s' : Mem} {own own' : Nat → Role} {l l' : List Nat} {d i t v : Nat}

theorem Heap.lt_of_role (h : Heap s own l) {f : Nat} (hf : own f ≠ .outside) : f < 2 ^ 20 := by
  have hv := h.valid f hf
  unfold kfreeBad at hv
  dsimp only [PGSIZE, PHYSTOP] at hv
  omega

/-- What a new table leaves as it was. -/
structure NewTable (d i t : Nat) (s : Mem) (own : Nat → Role) (s' : Mem) : Prop where
  self : s'.table d i = some t
  others : ∀ j, j ≠ i → s'.table d j = s.table d j
  pte : ∀ u < 2 ^ 20, s'.pte d u = s.pte d u
  tabs : Tables s' (update own t (.table d i)) d
  maps : Maps d s own s' (update own t (.table d i))

theorem addTable_spec (hH : Heap s own (t :: l)) (hT : Tables s own d) (hi : i < 1024)
    (hnone : s.table d i = none) :
    Heap (s.addTable d i t) (update own t (.table d i)) l ∧
      NewTable d i t s own (s.addTable d i t) := by
  have hfree : own t = .free := (hH.free t).2 List.mem_cons_self
  have htd : t ≠ d := by
    rintro rfl
    rw [hT.self] at hfree
    cases hfree
  have hpage : ∀ g, g ≠ t → g ≠ d → (s.addTable d i t).page g = s.page g := by
    intro g hgt hgd
    unfold Mem.addTable Mem.setEntry Mem.memset
    rw [Mem.setPage_of_ne _ _ _ hgd, Mem.setPage_of_ne _ _ _ hgt]
    rfl
  have ht20 : t < 2 ^ 20 := hH.lt_of_role (by rw [hfree]; nofun)
  have hself : (s.addTable d i t).entry d i = 4096 * t + 7 := by
    unfold Mem.addTable
    rw [Mem.entry_setEntry_self _ _ _ (by rw [tableWord_eq]; omega), tableWord_eq]
  have hothers : ∀ j, j ≠ i → (s.addTable d i t).entry d j = s.entry d j := by
    intro j hj
    unfold Mem.addTable
    rw [Mem.entry_setEntry_of_ne _ _ _ hj]
    exact Mem.entry_of_page (Mem.setPage_of_ne _ _ _ htd.symm) j
  have htable : (s.addTable d i t).table d i = some t := by
    unfold Mem.table
    rw [hself, if_pos ((present_iff _).2 (by omega))]
    congr 1
    show (4096 * t + 7) / 4096 = t
    omega
  have htables : ∀ j, j ≠ i → (s.addTable d i t).table d j = s.table d j := fun j hj =>
    Mem.table_of_entry (hothers j hj)
  have hzero : ∀ j, (s.addTable d i t).entry t j = 0 := by
    intro j
    unfold Mem.addTable Mem.setEntry
    rw [Mem.entry_of_page (Mem.setPage_of_ne _ _ _ htd)]
    exact Mem.entry_memset_zero ..
  have hpte : ∀ u < 2 ^ 20, (s.addTable d i t).pte d u = s.pte d u := by
    intro u hu
    by_cases he : u / 1024 = i
    · rw [Mem.pte_of_table (by rw [he]; exact htable), hzero, Mem.pte_of_none (by rw [he]; exact hnone)]
    · have htab := htables _ he
      cases hu' : s.table d (u / 1024) with
      | none => rw [Mem.pte_of_none hu', Mem.pte_of_none (htab.trans hu')]
      | some t' =>
        rw [Mem.pte_of_table hu', Mem.pte_of_table (htab.trans hu')]
        have hrole := (hT.table t' (u / 1024)).2 ⟨by omega, hu'⟩
        apply Mem.entry_of_page
        apply hpage
        · rintro rfl
          rw [hfree] at hrole
          cases hrole
        · exact hT.ne (by omega) hu'
  refine ⟨?_, htable, htables, hpte, ⟨?_, fun t' j => ?_⟩, fun f hf hfd _ => ?_, fun f => ?_⟩
  · have hpop : Heap (s.popped t) (update own t .held) l := hH.popped
    have hheld : update own t .held t = .held := update_self ..
    have hset := (hpop.setPage (f := t) (by rw [hheld]; nofun) fun _ => 0).setPage (f := d)
      (by rw [update_of_ne htd.symm, hT.self]; nofun)
      ((((s.popped t).memset t 0).page d).putWord i (PGSIZE * t ||| PTE_P ||| PTE_W ||| PTE_U))
    have hassign := hset.assign (f := t) (r := .table d i) (by rw [hheld]; nofun)
      (by rw [hheld]; nofun) nofun
    rw [update_idem] at hassign
    exact hassign
  · rw [update_of_ne htd.symm]
    exact hT.self
  · by_cases he : t' = t
    · subst he
      rw [update_self]
      constructor
      · rintro ⟨⟩
        exact ⟨hi, htable⟩
      · rintro ⟨hj, hjt⟩
        by_cases hji : j = i
        · rw [hji]
        · rw [htables j hji] at hjt
          have hrole := (hT.table t' j).2 ⟨hj, hjt⟩
          rw [hfree] at hrole
          cases hrole
    · rw [update_of_ne he, hT.table]
      by_cases hji : j = i
      · subst hji
        rw [hnone, htable]
        constructor
        · rintro ⟨-, ⟨⟩⟩
        · rintro ⟨-, ht'⟩
          cases ht'
          exact absurd rfl he
      · rw [htables j hji]
  · apply hpage
    · rintro rfl
      exact hf hfree
    · exact hfd
  · by_cases he : f = t
    · subst he
      exact .inr ⟨hfree, i, update_self ..⟩
    · exact .inl (update_of_ne he ..)

omit [Layout] in
theorem NewTable.ntab (h : NewTable d i t s own s') (hi : i < 1024) (hnone : s.table d i = none) :
    s'.ntab d = s.ntab d + 1 := by
  have hset : ((Finset.range 1024).filter fun j => s'.table d j ≠ none) =
      insert i ((Finset.range 1024).filter fun j => s.table d j ≠ none) := by
    ext j
    rw [Finset.mem_insert, Finset.mem_filter, Finset.mem_filter, Finset.mem_range]
    by_cases hj : j = i
    · subst hj
      rw [h.self]
      exact ⟨fun _ => .inl rfl, fun _ => ⟨hi, nofun⟩⟩
    · rw [h.others j hj]
      exact ⟨.inr, fun hm => hm.resolve_left hj⟩
  unfold Mem.ntab
  rw [hset, Finset.card_insert_of_notMem]
  rw [Finset.mem_filter]
  exact fun hm => hm.2 hnone

/-- `walkpgdir` has found or made the table `t` for the index `i`, in `c` calls of `kalloc`. -/
structure Walked (d i t c : Nat) (s : Mem) (own : Nat → Role) (l : List Nat) (s' : Mem)
    (own' : Nat → Role) (l' : List Nat) : Prop where
  heap : Heap s' own' l'
  tabs : Tables s' own' d
  self : s'.table d i = some t
  others : ∀ j, j ≠ i → s'.table d j = s.table d j
  pte : ∀ u < 2 ^ 20, s'.pte d u = s.pte d u
  maps : Maps d s own s' own'
  took : Took c s l s' l'
  ntab : s'.ntab d = s.ntab d + c
  calls : (c = 0 ∧ s.table d i = some t) ∨ (c = 1 ∧ s.table d i = none)

theorem walkpgdir_cases (hH : Heap s own l) (hT : Tables s own d) (hv : v < 2 ^ 20) :
    (∃ t c s' own' l', walkpgdir d (4096 * v) true s = .ok (some (t, v % 1024), s') ∧
      Walked d (v / 1024) t c s own l s' own' l') ∨
    (s.table d (v / 1024) = none ∧ s.Dry l ∧ walkpgdir d (4096 * v) true s = .ok (none, s.pass)) := by
  have hpdx := pdx_page hv
  have hptx := ptx_page v
  cases ht : s.table d (v / 1024) with
  | some t =>
    left
    have hwalk := walkpgdir_present (v := 4096 * v) (by rw [hpdx]; exact ht) true
    rw [hptx] at hwalk
    exact ⟨t, 0, s, own, l, hwalk, hH, hT, ht, fun _ _ => rfl, fun _ _ => rfl, .refl .., .refl ..,
      (Nat.add_zero _).symm, .inl ⟨rfl, ht⟩⟩
  | none =>
    rcases kalloc_cases hH with ⟨hdry, hk⟩ | ⟨t, l', rfl, hd, hk, -⟩
    · exact .inr ⟨rfl, hdry, walkpgdir_dry (by rw [hpdx]; exact ht) hk⟩
    · left
      have hwalk := walkpgdir_alloc (v := 4096 * v) (by rw [hpdx]; exact ht) hk
      rw [hptx, hpdx] at hwalk
      have hi : v / 1024 < 1024 := by omega
      obtain ⟨hH', hnew⟩ := addTable_spec hH hT hi ht
      exact ⟨t, 1, _, _, l', hwalk, hH', hnew.tabs, hnew.self, hnew.others, hnew.pte, hnew.maps,
        (Took.popped hd).of_deny rfl, hnew.ntab hi ht, .inr ⟨rfl, ht⟩⟩

/-! ## Mapping a range of pages -/

/-- The pages from `v` on, `m` of them, are mapped to the pages from `f` on, in `c` calls of
`kalloc`. -/
structure Mapped (d v m f perm c : Nat) (s : Mem) (own : Nat → Role) (l : List Nat) (s' : Mem)
    (own' : Nat → Role) (l' : List Nat) : Prop where
  heap : Heap s' own' l'
  tabs : Tables s' own' d
  pte : ∀ u < 2 ^ 20, s'.pte d u =
    if v ≤ u ∧ u < v + m then mkpte (f + (u - v)) perm else s.pte d u
  table : ∀ i, s.table d i ≠ none → s'.table d i = s.table d i
  range : ∀ i, s'.table d i ≠ none → s.table d i ≠ none ∨ (v ≤ 1024 * i + 1023 ∧ 1024 * i < v + m)
  maps : Maps d s own s' own'
  took : Took c s l s' l'
  ntab : s'.ntab d = s.ntab d + c

/-- As `Mapped`, with any words `w` for entries. -/
structure Entered (d v m : Nat) (w : Nat → Nat) (c : Nat) (s : Mem) (own : Nat → Role) (l : List Nat)
    (s' : Mem) (own' : Nat → Role) (l' : List Nat) : Prop where
  heap : Heap s' own' l'
  tabs : Tables s' own' d
  pte : ∀ u < 2 ^ 20, s'.pte d u = if v ≤ u ∧ u < v + m then w u else s.pte d u
  table : ∀ i, s.table d i ≠ none → s'.table d i = s.table d i
  range : ∀ i, s'.table d i ≠ none → s.table d i ≠ none ∨ (v ≤ 1024 * i + 1023 ∧ 1024 * i < v + m)
  maps : Maps d s own s' own'
  took : Took c s l s' l'
  ntab : s'.ntab d = s.ntab d + c

section
variable {m c f perm : Nat} {w : Nat → Nat}

theorem Entered.mapped (h : Entered d v m w c s own l s' own' l')
    (hw : ∀ u, v ≤ u → u < v + m → w u = mkpte (f + (u - v)) perm) :
    Mapped d v m f perm c s own l s' own' l' := by
  refine ⟨h.heap, h.tabs, fun u hu => ?_, h.table, h.range, h.maps, h.took, h.ntab⟩
  rw [h.pte u hu]
  split
  · next hr => exact hw u hr.1 hr.2
  · rfl

theorem Entered.refl (hH : Heap s own l) (hT : Tables s own d) (v : Nat) (w : Nat → Nat) :
    Entered d v 0 w 0 s own l s own l :=
  ⟨hH, hT, fun u _ => by rw [if_neg (by omega)], fun _ _ => rfl, fun _ hi => .inl hi, .refl ..,
    .refl .., (Nat.add_zero _).symm⟩

theorem Entered.trans {s₁ : Mem} {own₁ : Nat → Role} {l₁ : List Nat} {a b c' : Nat}
    (h : Entered d v a w c s own l s₁ own₁ l₁)
    (h' : Entered d (v + a) b w c' s₁ own₁ l₁ s' own' l') :
    Entered d v (a + b) w (c + c') s own l s' own' l' := by
  refine ⟨h'.heap, h'.tabs, fun u hu => ?_, fun i hi => ?_, fun i hi => ?_, h.maps.trans h'.maps,
    h.took.trans h'.took, ?_⟩
  · rw [h'.pte u hu, h.pte u hu]
    by_cases h1 : v ≤ u ∧ u < v + a
    · rw [if_neg (by omega), if_pos h1, if_pos (by omega)]
    · by_cases h2 : v + a ≤ u ∧ u < v + a + b
      · rw [if_pos h2, if_pos (by omega)]
      · rw [if_neg h2, if_neg h1, if_neg (by omega)]
  · rw [h'.table i (by rw [h.table i hi]; exact hi), h.table i hi]
  · rcases h'.range i hi with h1 | h1
    · rcases h.range i h1 with h2 | h2
      · exact .inl h2
      · exact .inr (by omega)
    · exact .inr (by omega)
  · rw [h'.ntab, h.ntab]
    omega

/-- One page, after `walkpgdir` has found its table. -/
theorem Walked.entered (h : Walked d (v / 1024) t c s own l s' own' l') (hv : v < 2 ^ 20)
    (hw : w v < 2 ^ 32) :
    Entered d v 1 w c s own l (s'.setEntry t (v % 1024) (w v)) own' l' := by
  have hi : v / 1024 < 1024 := by omega
  obtain ⟨htabs, htab, hpte⟩ := h.tabs.setEntry hv h.self hw
  have hrole := (h.tabs.table t (v / 1024)).2 ⟨hi, h.self⟩
  refine ⟨h.heap.setPage (by rw [hrole]; nofun) _, htabs, fun u hu => ?_, fun i hi => ?_,
    fun i hi => ?_, ⟨fun g hg hgd hgt => ?_, h.maps.own⟩, h.took.of_deny rfl, ?_⟩
  · rw [hpte u hu, h.pte u hu]
    by_cases he : u = v
    · rw [if_pos he, if_pos (by omega), he]
    · rw [if_neg he, if_neg (by omega)]
  · rw [htab]
    by_cases he : i = v / 1024
    · subst he
      rcases h.calls with ⟨-, hs⟩ | ⟨-, hs⟩
      · rw [h.self, hs]
      · exact absurd hs hi
    · exact h.others i he
  · rw [htab] at hi
    by_cases he : i = v / 1024
    · exact .inr (by omega)
    · exact .inl (by rwa [h.others i he] at hi)
  · rw [← h.maps.page g hg hgd hgt]
    apply Mem.setPage_of_ne
    rintro rfl
    have := h.maps.own_eq hg
    rw [hrole] at this
    exact hgt _ this.symm
  · rw [← h.ntab]
    unfold Mem.ntab
    simp only [htab]

end

omit [Layout] in
/-- An iteration of `mappages` that finds no table. -/
theorem mappagesLoop_none {last perm n a pa : Nat} {s₁ : Mem}
    (hw : walkpgdir d a true s = .ok (none, s₁)) :
    mappagesLoop d last perm (n + 1) a pa s = .ok (false, s₁) := by
  show (walkpgdir d a true >>= _ : VM Bool) s = _
  rw [seq_ok hw]
  rfl

omit [Layout] in
/-- An iteration of `mappages` that maps its page. -/
theorem mappagesLoop_some {last perm n a pa j : Nat} {s₁ : Mem}
    (hw : walkpgdir d a true s = .ok (some (t, j), s₁)) (hp : ¬ Present (s₁.entry t j)) :
    mappagesLoop d last perm (n + 1) a pa s =
      if a = last then .ok (true, s₁.setEntry t j (pa ||| perm ||| PTE_P))
      else mappagesLoop d last perm n ((a + PGSIZE) % 2 ^ 32) ((pa + PGSIZE) % 2 ^ 32)
        (s₁.setEntry t j (pa ||| perm ||| PTE_P)) := by
  show (walkpgdir d a true >>= _ : VM Bool) s = _
  rw [seq_ok hw]
  show (if Present (s₁.entry t j) then _ else _ : VM Bool) s₁ = _
  rw [if_neg hp]
  show (if a = last then _ else _ : VM Bool) (s₁.setEntry t j (pa ||| perm ||| PTE_P)) = _
  split <;> rfl

/-- One iteration, over a page that is not mapped. -/
theorem mappagesLoop_step (hH : Heap s own l) (hT : Tables s own d) {pa perm : Nat} {w : Nat → Nat}
    (hw : w v = pa ||| perm ||| PTE_P) (hlt : w v < 2 ^ 32) (hv : v < 2 ^ 20)
    (hfree : ¬ Present (s.pte d v)) (last n : Nat) :
    (∃ c s' own' l', Entered d v 1 w c s own l s' own' l' ∧
      (c = if s.table d (v / 1024) = none then 1 else 0) ∧
      mappagesLoop d last perm (n + 1) (4096 * v) pa s = if 4096 * v = last then .ok (true, s')
        else mappagesLoop d last perm n ((4096 * v + PGSIZE) % 2 ^ 32) ((pa + PGSIZE) % 2 ^ 32)
          s') ∨
    (mappagesLoop d last perm (n + 1) (4096 * v) pa s = .ok (false, s.pass) ∧ s.Dry l ∧
      s.table d (v / 1024) = none) := by
  rcases walkpgdir_cases hH hT hv with ⟨t, c, s', own', l', hwalk, h⟩ | ⟨hnone, hdry, hwalk⟩
  · left
    have hnp : ¬ Present (s'.entry t (v % 1024)) := by
      rw [← Mem.pte_of_table h.self, h.pte v hv]
      exact hfree
    refine ⟨c, _, own', l', h.entered hv hlt, ?_, hw ▸ mappagesLoop_some hwalk hnp⟩
    rcases h.calls with ⟨hc, ht⟩ | ⟨hc, ht⟩
    · rw [ht, hc, if_neg nofun]
    · rw [ht, hc, if_pos rfl]
  · right
    exact ⟨mappagesLoop_none hwalk, hdry, hnone⟩

/-- `mappages` over pages that are not mapped enters them all, or stops where there is no page for a
table.  The addresses that are entered may wrap. -/
theorem mappagesLoop_enters (d : Nat) {perm : Nat} (hp : perm < 2 ^ 32) (w : Nat → Nat)
    (fuel : Nat) : ∀ (n v pa : Nat) {s : Mem} {own : Nat → Role} {l : List Nat}, n < fuel →
    v + n < 2 ^ 20 → pa < 2 ^ 32 →
    (∀ k ≤ n, w (v + k) = (pa + PGSIZE * k) % 2 ^ 32 ||| perm ||| PTE_P) → Heap s own l →
    Tables s own d → (∀ u, v ≤ u → u ≤ v + n → ¬ Present (s.pte d u)) →
    (∃ c s' own' l', mappagesLoop d (4096 * (v + n)) perm fuel (4096 * v) pa s = .ok (true, s') ∧
      Entered d v (n + 1) w c s own l s' own' l') ∨
    ∃ m c s' own' l', m ≤ n ∧
      mappagesLoop d (4096 * (v + n)) perm fuel (4096 * v) pa s = .ok (false, s'.pass) ∧
      Entered d v m w c s own l s' own' l' ∧ s'.Dry l' ∧ s'.table d ((v + m) / 1024) = none := by
  induction fuel with
  | zero => exact fun n _ _ _ _ _ hn => absurd hn (Nat.not_lt_zero n)
  | succ fuel ih =>
    intro n v pa s own l hfuel hv hpa hw hH hT hfree
    have hwv : w v = pa ||| perm ||| PTE_P := by
      have := hw 0 (by omega)
      rwa [Nat.mul_zero, Nat.add_zero, Nat.add_zero, Nat.mod_eq_of_lt hpa] at this
    have hlt : w v < 2 ^ 32 := hwv ▸ Nat.or_lt_two_pow (Nat.or_lt_two_pow hpa hp) (by decide)
    rcases mappagesLoop_step hH hT hwv hlt (by omega) (hfree v (by omega) (by omega))
      (4096 * (v + n)) fuel with ⟨c, s₁, own₁, l₁, hone, -, hrun₁⟩ | ⟨hrun, hdry, hnone⟩
    · cases n with
      | zero => exact .inl ⟨c, s₁, own₁, l₁, hrun₁.trans (if_pos rfl), hone⟩
      | succ n =>
        have hstep : mappagesLoop d (4096 * (v + (n + 1))) perm (fuel + 1) (4096 * v) pa s =
            mappagesLoop d (4096 * (v + 1 + n)) perm fuel (4096 * (v + 1)) ((pa + PGSIZE) % 2 ^ 32)
              s₁ := by
          have hlast : 4096 * (v + (n + 1)) = 4096 * (v + 1 + n) := by omega
          have ha : (4096 * v + PGSIZE) % 2 ^ 32 = 4096 * (v + 1) := by
            dsimp only [PGSIZE]
            omega
          rw [hrun₁, if_neg (by omega), hlast, ha]
        have hrest := ih n (v + 1) ((pa + PGSIZE) % 2 ^ 32) (by omega) (by omega)
          (Nat.mod_lt _ (by decide)) (fun k hk => by
            rw [Nat.add_assoc, hw (1 + k) (by omega), Nat.mod_add_mod, Nat.mul_add, Nat.mul_one,
              ← Nat.add_assoc]) hone.heap hone.tabs fun u hu hun => by
            rw [hone.pte u (by omega), if_neg (by omega)]
            exact hfree u (by omega) (by omega)
        rcases hrest with
          ⟨c', s', own', l', hrun, hm⟩ | ⟨m, c', s', own', l', hmn, hrun, hm, hdry, hnone⟩
        · left
          refine ⟨c + c', s', own', l', hstep.trans hrun, ?_⟩
          rw [show n + 1 + 1 = 1 + (n + 1) by omega]
          exact hone.trans hm
        · right
          refine ⟨1 + m, c + c', s', own', l', by omega, hstep.trans hrun, hone.trans hm, hdry, ?_⟩
          rwa [← Nat.add_assoc]
    · right
      exact ⟨0, 0, s, own, l, by omega, hrun, .refl hH hT v w, hdry, hnone⟩

theorem mappagesLoop_spec (d : Nat) {perm : Nat} (hp : perm < 4096) (n : Nat) (fuel : Nat)
    {f : Nat} (hfuel : n < fuel) (hv : v + n < 2 ^ 20) (hf : f + n < 2 ^ 20) (hH : Heap s own l)
    (hT : Tables s own d) (hfree : ∀ u, v ≤ u → u ≤ v + n → ¬ Present (s.pte d u)) :
    (∃ c s' own' l',
      mappagesLoop d (4096 * (v + n)) perm fuel (4096 * v) (4096 * f) s = .ok (true, s') ∧
      Mapped d v (n + 1) f perm c s own l s' own' l') ∨
    ∃ m c s' own' l', m ≤ n ∧
      mappagesLoop d (4096 * (v + n)) perm fuel (4096 * v) (4096 * f) s = .ok (false, s'.pass) ∧
      Mapped d v m f perm c s own l s' own' l' ∧ s'.Dry l' ∧
      s'.table d ((v + m) / 1024) = none := by
  have hw : ∀ k ≤ n, mkpte (f + (v + k - v)) perm =
      (4096 * f + PGSIZE * k) % 2 ^ 32 ||| perm ||| PTE_P := by
    intro k hk
    unfold mkpte
    congr 2
    dsimp only [PGSIZE]
    omega
  rcases mappagesLoop_enters d (by omega) (fun u => mkpte (f + (u - v)) perm) fuel n v _ hfuel hv
    (by omega) hw hH hT hfree with ⟨c, s', own', l', hrun, h⟩ | ⟨m, c, s', own', l', hm, hrun, h, hdry⟩
  · exact .inl ⟨c, s', own', l', hrun, h.mapped fun _ _ _ => rfl⟩
  · exact .inr ⟨m, c, s', own', l', hm, hrun, h.mapped fun _ _ _ => rfl, hdry⟩

/-- Mapping one page. -/
theorem mappages_page (hH : Heap s own l) (hT : Tables s own d) {f perm : Nat} (hp : perm < 4096)
    (hv : v < 2 ^ 20) (hf : f < 2 ^ 20) (hfree : ¬ Present (s.pte d v)) :
    (∃ c s' own' l', mappages d (4096 * v) PGSIZE (PGSIZE * f) perm s = .ok (true, s') ∧
      Mapped d v 1 f perm c s own l s' own' l' ∧
      c = if s.table d (v / 1024) = none then 1 else 0) ∨
    (mappages d (4096 * v) PGSIZE (PGSIZE * f) perm s = .ok (false, s.pass) ∧ s.Dry l ∧
      s.table d (v / 1024) = none) := by
  have hmap : mappages d (4096 * v) PGSIZE (PGSIZE * f) perm s =
      mappagesLoop d (4096 * v) perm (2 ^ 20) (4096 * v) (4096 * f) s := by
    have hlast : pgrounddown ((4096 * v + PGSIZE + (2 ^ 32 - 1)) % 2 ^ 32) = 4096 * v := by
      unfold pgrounddown
      dsimp only [PGSIZE]
      omega
    have ha : pgrounddown (4096 * v) = 4096 * v := by
      unfold pgrounddown
      dsimp only [PGSIZE]
      omega
    unfold mappages
    rw [hlast, ha]
  rw [hmap]
  rcases mappagesLoop_step (w := fun _ => mkpte f perm) hH hT rfl (mkpte_lt hp hf) hv hfree
    (4096 * v) (2 ^ 20 - 1) with ⟨c, s', own', l', hm, hc, hrun⟩ | hfail
  · refine .inl ⟨c, s', own', l', hrun.trans (if_pos rfl), hm.mapped fun u h1 h2 => ?_, hc⟩
    rw [show u - v = 0 by omega, Nat.add_zero]
  · exact .inr hfail

end

end Xv6.Vm
