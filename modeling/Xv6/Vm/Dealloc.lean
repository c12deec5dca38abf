import Xv6.Vm.Walk

/-!
# Giving pages back

`deallocuvm` walks the page numbers from `PGROUNDUP(newsz)` on.  Where there is no page table it
goes on 1024 pages further, at the same place within the next table, so the first table it then
finds is entered in its middle: the pages before are `Skipped`.  Apart from those it frees every
present page of the range and touches nothing else (`deallocuvmLoop_spec`).

`freevm` frees a directory with all its tables and user pages.
-/

namespace Xv6.Vm

open Function List

/-- The present user pages in `P` have been freed and their entries cleared. -/
structure Freed [Layout] (d : Nat) (P : Nat → Prop) (s : Mem) (own : Nat → Role) (s' : Mem)
    (own' : Nat → Role) (l' : List Nat) : Prop where
  heap : Heap s' own' l'
  dir : Dir s' own' d
  root : s'.page d = s.page d
  cleared : ∀ u < 2 ^ 20, P u → Present (s.pte d u) → s'.pte d u = 0
  kept : ∀ u < 2 ^ 20, ¬ (P u ∧ Present (s.pte d u)) → s'.pte d u = s.pte d u
  free : ∀ f u, own f = .user d u → P u → own' f = .free
  role : ∀ f, (∀ u, own f = .user d u → ¬ P u) → own' f = own f
  page : ∀ f, (∀ u, own f = .user d u → ¬ P u) → (∀ i, own f ≠ .table d i) → s'.page f = s.page f
  deny : s'.deny = s.deny

section
variable [Layout] {s s₁ s' : Mem} {own own₁ own' : Nat → Role} {l l₁ l' : List Nat}
  {d t v f : Nat} {P Q : Nat → Prop}

theorem Freed.refl (hH : Heap s own l) (hD : Dir s own d) (hP : ∀ u, ¬ P u) :
    Freed d P s own s own l :=
  ⟨hH, hD, rfl, fun u _ hu => absurd hu (hP u), fun _ _ _ => rfl, fun _ u _ hu => absurd hu (hP u),
    fun _ _ => rfl, fun _ _ _ => rfl, rfl⟩

theorem Freed.trans (h : Freed d P s own s₁ own₁ l₁) (h' : Freed d Q s₁ own₁ s' own' l') :
    Freed d (fun u => P u ∨ Q u) s own s' own' l' := by
  have hpresent : ∀ u < 2 ^ 20, ¬ P u → s₁.pte d u = s.pte d u := fun u hu hp =>
    h.kept u hu fun hc => hp hc.1
  have hstay : ∀ f u, own f = .user d u → ¬ P u → own₁ f = own f := by
    intro f u hf hp
    refine h.role f fun u' hu' => ?_
    rw [hf] at hu'
    cases hu'
    exact hp
  have hnot : ∀ f, (∀ u, own f = .user d u → ¬ (P u ∨ Q u)) →
      own₁ f = own f ∧ ∀ u, own₁ f = .user d u → ¬ Q u := by
    intro f hf
    have ho := h.role f fun u hu hp => hf u hu (.inl hp)
    refine ⟨ho, fun u hu hq => hf u (by rwa [ho] at hu) (.inr hq)⟩
  refine ⟨h'.heap, h'.dir, h'.root.trans h.root, fun u hu hpq hp => ?_, fun u hu hn => ?_,
    fun f u hf hpq => ?_, fun f hf => ?_, fun f hf ht => ?_, h'.deny.trans h.deny⟩
  · by_cases hP : P u
    · have h0 := h.cleared u hu hP hp
      rw [h'.kept u hu (by rw [h0]; exact fun hc => not_present_zero hc.2), h0]
    · rw [← hpresent u hu hP] at hp
      exact h'.cleared u hu (hpq.resolve_left hP) hp
  · by_cases hp : Present (s.pte d u)
    · have hP : ¬ P u := fun hP => hn ⟨.inl hP, hp⟩
      rw [h'.kept u hu fun hc => hn ⟨.inr hc.1, hp⟩, hpresent u hu hP]
    · have h1 := h.kept u hu fun hc => hp hc.2
      rw [h'.kept u hu (by rw [h1]; exact fun hc => hp hc.2), h1]
  · by_cases hP : P u
    · have h1 := h.free f u hf hP
      rw [h'.role f (by rw [h1]; nofun), h1]
    · have h1 := hstay f u hf hP
      exact h'.free f u (h1.trans hf) (hpq.resolve_left hP)
  · obtain ⟨h1, h2⟩ := hnot f hf
    rw [h'.role f h2, h1]
  · obtain ⟨h1, h2⟩ := hnot f hf
    rw [h'.page f h2 (by rwa [h1]), h.page f (fun u hu hp => hf u hu (.inl hp)) ht]

/-- Only present pages matter. -/
theorem Freed.congr (h : Freed d P s own s' own' l') (hD : Dir s own d)
    (hPQ : ∀ u < 2 ^ 20, Present (s.pte d u) → (P u ↔ Q u)) : Freed d Q s own s' own' l' := by
  have huser : ∀ f u, own f = .user d u → (P u ↔ Q u) := by
    intro f u hf
    obtain ⟨hu, hp, -⟩ := (hD.user f u).1 hf
    exact hPQ u (by omega) hp
  refine ⟨h.heap, h.dir, h.root, fun u hu hq hp => h.cleared u hu ((hPQ u hu hp).2 hq) hp,
    fun u hu hn => h.kept u hu fun hc => hn ⟨(hPQ u hu hc.2).1 hc.1, hc.2⟩,
    fun f u hf hq => h.free f u hf ((huser f u hf).2 hq),
    fun f hf => h.role f fun u hu hp => hf u hu ((huser f u hu).1 hp),
    fun f hf => h.page f fun u hu hp => hf u hu ((huser f u hu).1 hp), h.deny⟩

/-- Free the page of a present user entry, then clear the entry. -/
theorem freed_page (hH : Heap s own l) (hD : Dir s own d) (hv : v < 2 ^ 19)
    (ht : s.table d (v / 1024) = some t) (hp : Present (s.pte d v)) :
    Freed d (· = v) s own ((s.freed (pteAddr (s.pte d v))).setEntry t (v % 1024) 0)
      (update own (pteAddr (s.pte d v)) .free) (pteAddr (s.pte d v) :: l) := by
  have hi : v / 1024 < 1024 := by omega
  have hrole := (hD.user _ v).2 ⟨hv, hp, rfl⟩
  have htrole := (hD.table t (v / 1024)).2 ⟨hi, ht⟩
  generalize hf : pteAddr (s.pte d v) = f at hrole
  have hfd : f ≠ d := by
    rintro rfl
    rw [hD.self] at hrole
    cases hrole
  have htf : t ≠ f := by
    rintro rfl
    rw [htrole] at hrole
    cases hrole
  have htd := hD.toTables.ne hi ht
  have hupd : ∀ g, g ≠ f → update own f .free g = own g := fun g hg =>
    update_of_ne hg ..
  -- `kfree` writes no page of the directory
  have hfreed : ∀ g, (g = d ∨ ∃ i, own g = .table d i) → (s.freed f).page g = s.page g := by
    rintro g hg
    apply s.freed_page_of_ne
    rintro rfl
    rcases hg with hg | ⟨i, hg⟩
    · exact hfd hg
    · rw [hrole] at hg
      cases hg
  have htable : ∀ g i, update own f .free g = .table d i ↔ own g = .table d i := by
    intro g i
    by_cases hg : g = f
    · rw [hg, update_self, hrole]
      exact ⟨nofun, nofun⟩
    · rw [hupd g hg]
  obtain ⟨htabs, htab, hpte⟩ := hD.toTables.congr hfreed htable ((hupd d hfd.symm).trans hD.self)
  have ht' : (s.freed f).table d (v / 1024) = some t := (htab _).trans ht
  obtain ⟨htabs', htab', hpte'⟩ := htabs.setEntry (by omega) ht' (w := 0) (by decide)
  refine ⟨?_, ⟨htabs', fun g u => ?_⟩, ?_, ?_, ?_, ?_, ?_, ?_, rfl⟩
  · refine (hH.freed (by rw [hrole]; nofun) (by rw [hrole]; nofun)).setPage ?_ _
    rw [hupd t htf, htrole]
    nofun
  · by_cases hg : g = f
    · subst hg
      rw [update_self]
      constructor
      · nofun
      · rintro ⟨hu, hpu, hau⟩
        rw [hpte' u (by omega)] at hpu hau
        by_cases he : u = v
        · rw [if_pos he] at hpu
          exact absurd hpu not_present_zero
        · rw [if_neg he, hpte u (by omega)] at hpu hau
          have := (hD.user _ u).2 ⟨hu, hpu, hau⟩
          rw [hrole] at this
          cases this
          exact absurd rfl he
    · rw [hupd g hg, hD.user]
      constructor
      · rintro ⟨hu, hpu, hau⟩
        have he : u ≠ v := by
          rintro rfl
          exact hg (hau.symm.trans hf)
        rw [hpte' u (by omega), if_neg he, hpte u (by omega)]
        exact ⟨hu, hpu, hau⟩
      · rintro ⟨hu, hpu, hau⟩
        rw [hpte' u (by omega)] at hpu hau
        by_cases he : u = v
        · rw [if_pos he] at hpu
          exact absurd hpu not_present_zero
        · rw [if_neg he, hpte u (by omega)] at hpu hau
          exact ⟨hu, hpu, hau⟩
  · exact (Mem.setPage_of_ne _ _ _ htd.symm).trans (hfreed d (.inl rfl))
  · rintro u hu rfl -
    rw [hpte' u hu, if_pos rfl]
  · intro u hu hn
    rw [hpte' u hu, hpte u hu]
    split
    · next he =>
      subst he
      exact absurd ⟨rfl, hp⟩ hn
    · rfl
  · rintro g u hg rfl
    have : g = f := by
      obtain ⟨-, -, ha⟩ := (hD.user g u).1 hg
      rw [← ha, hf]
    rw [this]
    exact update_self ..
  · intro g hg
    apply hupd
    rintro rfl
    exact hg v hrole rfl
  · intro g hg hgt
    have hgf : g ≠ f := by
      rintro rfl
      exact hg v hrole rfl
    have hgt' : g ≠ t := by
      rintro rfl
      exact hgt _ htrole
    exact (Mem.setPage_of_ne _ _ _ hgt').trans (s.freed_page_of_ne f hgf)

/-! ## deallocuvm -/

/-- From `v` on, no table up to the one of `u`, and `u` stands before the place in its table where
the walk comes in. -/
def Mem.Skipped (s : Mem) (d v u : Nat) : Prop :=
  v / 1024 < u / 1024 ∧ u % 1024 < v % 1024 ∧
    ∀ j, v / 1024 ≤ j → j < u / 1024 → s.table d j = none

theorem deallocuvmLoop_done {oldsz n a : Nat} (h : ¬ a < oldsz) :
    deallocuvmLoop d oldsz (n + 1) a s = .ok ((), s) := by
  unfold deallocuvmLoop
  rw [if_neg h]
  rfl

theorem deallocuvmLoop_none {oldsz n a : Nat} (h : a < oldsz) (ht : s.table d (pdx a) = none) :
    deallocuvmLoop d oldsz (n + 1) a s =
      deallocuvmLoop d oldsz n ((a + (NPTENTRIES - 1) * PGSIZE + PGSIZE) % 2 ^ 32) s := by
  have hw := walkpgdir_false s d a
  rw [ht] at hw
  rw [deallocuvmLoop, if_pos h]
  exact seq_ok hw

theorem deallocuvmLoop_absent {oldsz n a : Nat} (h : a < oldsz) (ht : s.table d (pdx a) = some t)
    (hp : ¬ Present (s.entry t (ptx a))) :
    deallocuvmLoop d oldsz (n + 1) a s = deallocuvmLoop d oldsz n ((a + PGSIZE) % 2 ^ 32) s := by
  have hw := walkpgdir_present ht false
  rw [deallocuvmLoop, if_pos h, seq_ok hw]
  show (if Present (s.entry t (ptx a)) then _ else _ : VM Unit) s = _
  rw [if_neg hp]

theorem deallocuvmLoop_present {oldsz n a : Nat} (h : a < oldsz) (ht : s.table d (pdx a) = some t)
    (hp : Present (s.entry t (ptx a))) (hf : pteAddr (s.entry t (ptx a)) = f)
    (hbad : ¬ kfreeBad f) : deallocuvmLoop d oldsz (n + 1) a s =
      deallocuvmLoop d oldsz n ((a + PGSIZE) % 2 ^ 32) ((s.freed f).setEntry t (ptx a) 0) := by
  have hw := walkpgdir_present ht false
  have hpos : f ≠ 0 := by
    rintro rfl
    have h1 := Layout.text_pos
    have h2 := Layout.data_le
    unfold kfreeBad at hbad
    dsimp only [PGSIZE, EXTMEM] at hbad h1
    omega
  rw [deallocuvmLoop, if_pos h, seq_ok hw]
  show (if Present (s.entry t (ptx a)) then _ else _ : VM Unit) s = _
  rw [if_pos hp, hf]
  show (if f = 0 then _ else _ : VM Unit) s = _
  rw [if_neg hpos]
  exact seq_ok (kfree_eq hbad)

/-- The loop frees the present pages from `v` on that lie below `oldsz` and are not skipped. -/
theorem deallocuvmLoop_spec {oldsz : Nat} (hsz : oldsz ≤ KERNBASE) (n : Nat) :
    ∀ {v : Nat} {s : Mem} {own : Nat → Role} {l : List Nat}, oldsz ≤ 4096 * (v + n) →
    Heap s own l → Dir s own d → ∃ s' own' l',
      deallocuvmLoop d oldsz (n + 1) (4096 * v) s = .ok ((), s') ∧
      Freed d (fun u => v ≤ u ∧ 4096 * u < oldsz ∧ ¬ s.Skipped d v u) s own s' own' l' := by
  dsimp only [KERNBASE] at hsz
  induction n with
  | zero =>
    intro v s own l hn hH hD
    exact ⟨s, own, l, deallocuvmLoop_done (by omega), .refl hH hD fun u hu => by omega⟩
  | succ n ih =>
    intro v s own l hn hH hD
    by_cases hlt : 4096 * v < oldsz
    · have hv : v < 2 ^ 19 := by omega
      have hpdx : pdx (4096 * v) = v / 1024 := pdx_page (by omega)
      have hptx := ptx_page v
      cases ht : s.table d (v / 1024) with
      | none =>
        -- the walk comes in at the same place of the next table
        have hnext : (4096 * v + (NPTENTRIES - 1) * PGSIZE + PGSIZE) % 2 ^ 32 = 4096 * (v + 1024) := by
          dsimp only [NPTENTRIES, PGSIZE]
          omega
        obtain ⟨s', own', l', hrun, h⟩ := ih (v := v + 1024) (by omega) hH hD
        refine ⟨s', own', l', ?_, h.congr hD fun u hu hp => ?_⟩
        · rw [deallocuvmLoop_none hlt (by rw [hpdx]; exact ht), hnext]
          exact hrun
        · obtain ⟨t, htu⟩ := Mem.exists_table hp
          have hne : u / 1024 ≠ v / 1024 := by
            intro he
            rw [he, ht] at htu
            cases htu
          constructor
          · rintro ⟨h1, h2, h3⟩
            refine ⟨by omega, h2, fun hs => h3 ⟨?_, by have := hs.2.1; omega, fun j hj hju => ?_⟩⟩
            · have := hs.1
              have := hs.2.1
              omega
            · exact hs.2.2 j (by omega) hju
          · rintro ⟨h1, h2, h3⟩
            have hnot : v + 1024 ≤ u := by
              by_contra hge
              refine h3 ⟨by omega, by omega, fun j hj hju => ?_⟩
              rw [show j = v / 1024 by omega]
              exact ht
            refine ⟨hnot, h2, fun hs => h3 ⟨by omega, by have := hs.2.1; omega, fun j hj hju => ?_⟩⟩
            by_cases hjv : j = v / 1024
            · rw [hjv]
              exact ht
            · exact hs.2.2 j (by omega) hju
      | some t =>
        have hnext : (4096 * v + PGSIZE) % 2 ^ 32 = 4096 * (v + 1) := by
          dsimp only [PGSIZE]
          omega
        have hentry := Mem.pte_of_table ht
        -- with a table here nothing is skipped, now or from the next page on
        have hnone : ∀ u, ¬ s.Skipped d v u := by
          intro u hs
          have := hs.2.2 (v / 1024) (Nat.le_refl _) hs.1
          rw [ht] at this
          cases this
        have hnone' : ∀ s₁ : Mem, s₁.table d (v / 1024) = some t → ∀ u, ¬ s₁.Skipped d (v + 1) u := by
          intro s₁ ht₁ u hs
          by_cases hdiv : (v + 1) / 1024 = v / 1024
          · have := hs.2.2 ((v + 1) / 1024) (Nat.le_refl _) hs.1
            rw [hdiv, ht₁] at this
            cases this
          · have := hs.2.1
            omega
        by_cases hp : Present (s.pte d v)
        · have hpage := freed_page hH hD hv ht hp
          have hrole := (hD.user _ v).2 ⟨hv, hp, rfl⟩
          have hstep := deallocuvmLoop_present (n := n + 1) hlt (by rw [hpdx]; exact ht)
            (by rw [hptx, ← hentry]; exact hp) (by rw [hptx, ← hentry])
            (hH.valid _ (by rw [hrole]; nofun))
          rw [hnext, hptx] at hstep
          obtain ⟨s', own', l', hrun, h⟩ := ih (v := v + 1) (by omega) hpage.heap hpage.dir
          refine ⟨s', own', l', hstep.trans hrun, (hpage.trans h).congr hD fun u _ _ => ?_⟩
          have ht₁ := (Mem.table_of_entry (Mem.entry_of_page hpage.root (v / 1024))).trans ht
          have h1 := hnone u
          have h2 := hnone' _ ht₁ u
          constructor
          · rintro (rfl | ⟨h3, h4, -⟩)
            · exact ⟨Nat.le_refl _, hlt, h1⟩
            · exact ⟨by omega, h4, h1⟩
          · rintro ⟨h3, h4, -⟩
            by_cases he : u = v
            · exact .inl he
            · exact .inr ⟨by omega, h4, h2⟩
        · have hstep := deallocuvmLoop_absent (n := n + 1) hlt (by rw [hpdx]; exact ht)
            (by rw [hptx, ← hentry]; exact hp)
          rw [hnext] at hstep
          obtain ⟨s', own', l', hrun, h⟩ := ih (v := v + 1) (by omega) hH hD
          refine ⟨s', own', l', hstep.trans hrun, h.congr hD fun u _ hpu => ?_⟩
          have h1 := hnone u
          have h2 := hnone' _ ht u
          constructor
          · rintro ⟨h3, h4, -⟩
            exact ⟨by omega, h4, h1⟩
          · rintro ⟨h3, h4, -⟩
            have he : u ≠ v := by
              rintro rfl
              exact hp hpu
            exact ⟨by omega, h4, h2⟩
    · exact ⟨s, own, l, deallocuvmLoop_done hlt, .refl hH hD fun u hu => by omega⟩

omit [Layout] in
theorem pgroundup_eq (sz : Nat) (h : sz ≤ KERNBASE) :
    pgroundup sz = 4096 * ((sz + 4095) / 4096) := by
  unfold pgroundup
  dsimp only [PGSIZE, KERNBASE] at h ⊢
  omega

/-- `deallocuvm` returns `newsz` and frees the pages of the range that are not skipped. -/
theorem deallocuvm_spec (oldsz newsz : Nat) (hH : Heap s own l) (hD : Dir s own d)
    (hold : oldsz ≤ KERNBASE) (hnew : newsz < oldsz) : ∃ s' own' l',
      deallocuvm d oldsz newsz s = .ok (newsz, s') ∧
      Freed d (fun u => pgroundup newsz ≤ 4096 * u ∧ 4096 * u < oldsz ∧
        ¬ s.Skipped d (pgroundup newsz / 4096) u) s own s' own' l' := by
  have hfuel : oldsz ≤ 4096 * ((newsz + 4095) / 4096 + 1048575) := by
    dsimp only [KERNBASE] at hold
    rw [Nat.mul_add]
    omega
  have hup := pgroundup_eq newsz (by omega)
  have hdiv : pgroundup newsz / 4096 = (newsz + 4095) / 4096 := by omega
  obtain ⟨s', own', l', hrun, h⟩ := deallocuvmLoop_spec hold 1048575 hfuel hH hD
  refine ⟨s', own', l', ?_, ?_⟩
  · show (if newsz ≥ oldsz then _ else _ : VM Nat) s = _
    rw [if_neg (by omega)]
    show (deallocuvmLoop d oldsz (1048575 + 1) (pgroundup newsz) >>= _ : VM Nat) s = _
    rw [hup]
    exact seq_ok hrun
  · rw [hdiv]
    refine h.congr hD fun u _ _ => ?_
    rw [hup]
    constructor
    · rintro ⟨h1, h2⟩
      exact ⟨by omega, h2⟩
    · rintro ⟨h1, h2⟩
      exact ⟨by omega, h2⟩

omit [Layout] in
/-- From the start of a table on nothing is skipped. -/
theorem not_skipped_of_aligned (s : Mem) (d u : Nat) (hv : v % 1024 = 0) : ¬ s.Skipped d v u := by
  intro h
  have := h.2.1
  omega

end

/-! ## freevm -/

/-- The pages of the directory `d`: itself, its tables and its user pages. -/
def Belongs (own : Nat → Role) (d f : Nat) : Prop :=
  f = d ∨ (∃ i, own f = .table d i) ∨ ∃ v, own f = .user d v

section
variable {s s' : Mem} {own own' : Nat → Role} {p d f : Nat}

theorem Belongs.used (h : Belongs own p f) (hp : own p = .dir) :
    own f ≠ .free ∧ own f ≠ .outside ∧ own f ≠ .held := by
  rcases h with rfl | ⟨i, hi⟩ | ⟨u, hu⟩
  · rw [hp]
    exact ⟨nofun, nofun, nofun⟩
  · rw [hi]
    exact ⟨nofun, nofun, nofun⟩
  · rw [hu]
    exact ⟨nofun, nofun, nofun⟩

theorem Belongs.unique (h : Belongs own p f) (hp : own p = .dir)
    (hd : own d = .free ∨ own d = .dir) (hne : p ≠ d) : ¬ Belongs own d f := by
  intro h'
  rcases h with rfl | ⟨i, hi⟩ | ⟨u, hu⟩
  · rcases h' with h' | ⟨i, hi⟩ | ⟨u, hu⟩
    · exact hne h'
    · exact nomatch hp.symm.trans hi
    · exact nomatch hp.symm.trans hu
  · rcases h' with rfl | ⟨j, hj⟩ | ⟨u, hu⟩
    · rw [hi] at hd
      exact hd.elim nofun nofun
    · cases hi.symm.trans hj
      exact hne rfl
    · exact nomatch hi.symm.trans hu
  · rcases h' with rfl | ⟨j, hj⟩ | ⟨v, hv⟩
    · rw [hu] at hd
      exact hd.elim nofun nofun
    · exact nomatch hu.symm.trans hj
    · cases hu.symm.trans hv
      exact hne rfl

/-- A directory whose pages are as they were, and which has got no others. -/
theorem Dir.keep (hP : Dir s own p)
    (hkeep : ∀ f, Belongs own p f → own' f = own f ∧ s'.page f = s.page f)
    (hback : ∀ f, own' f = own f ∨ ¬ Belongs own' p f) : Dir s' own' p ∧
      (∀ i, s'.table p i = s.table p i) ∧ ∀ u < 2 ^ 20, s'.pte p u = s.pte p u := by
  have hiff : ∀ f (r : Role), (∀ o : Nat → Role, o f = r → Belongs o p f) →
      (own' f = r ↔ own f = r) := by
    intro f r hr
    constructor
    · intro hf
      rcases hback f with he | hno
      · rwa [← he]
      · exact absurd (hr own' hf) hno
    · intro hf
      rw [(hkeep f (hr own hf)).1, hf]
  have hpage : ∀ f, (f = p ∨ ∃ i, own f = .table p i) → s'.page f = s.page f := fun f hf =>
    (hkeep f (hf.imp id .inl)).2
  have htable : ∀ f i, own' f = .table p i ↔ own f = .table p i := fun f i =>
    hiff f _ fun _ h => .inr (.inl ⟨i, h⟩)
  have hself : own' p = .dir := by rw [(hkeep p (.inl rfl)).1, hP.self]
  obtain ⟨-, htab, hpte⟩ := hP.toTables.congr hpage htable hself
  exact ⟨(hP.congr hpage htable (fun f v => hiff f _ fun _ h => .inr (.inr ⟨v, h⟩)) hself).1, htab,
    hpte⟩

end

section
variable [Layout] {s s' : Mem} {own own' : Nat → Role} {l l' : List Nat} {d : Nat}

theorem freevmLoop_absent {i : Nat} {is : List Nat} (h : s.table d i = none) :
    freevmLoop d (i :: is) s = freevmLoop d is s := by
  show (if Present (s.entry d i) then _ else _ : VM Unit) s = _
  rw [if_neg (not_present_of_none h)]

theorem freevmLoop_present {i t : Nat} {is : List Nat} (h : s.table d i = some t)
    (hbad : ¬ kfreeBad t) : freevmLoop d (i :: is) s = freevmLoop d is (s.freed t) := by
  obtain ⟨hp, rfl⟩ := Mem.table_some h
  show (if Present (s.entry d i) then _ else _ : VM Unit) s = _
  rw [if_pos hp]
  exact seq_ok (kfree_eq hbad)

/-- The tables of the indices still to come are freed. -/
theorem freevmLoop_spec (is : List Nat) : ∀ {s : Mem} {own : Nat → Role} {l : List Nat},
    is.Nodup → Heap s own l → own d = .dir →
    (∀ i ∈ is, ∀ t, own t = .table d i ↔ s.table d i = some t) → ∃ s' own' l',
      freevmLoop d is s = .ok ((), s') ∧ Heap s' own' l' ∧ s'.deny = s.deny ∧
      (∀ f, (∃ i ∈ is, own f = .table d i) → own' f = .free) ∧
      ∀ f, (∀ i ∈ is, own f ≠ .table d i) → own' f = own f ∧ s'.page f = s.page f := by
  induction is with
  | nil =>
    intro s own l _ hH _ _
    refine ⟨s, own, l, rfl, hH, rfl, ?_, fun f _ => ⟨rfl, rfl⟩⟩
    rintro f ⟨i, hi, -⟩
    cases hi
  | cons i is ih =>
    intro s own l hnd hH hself htab
    obtain ⟨hi, hnd⟩ := nodup_cons.1 hnd
    cases ht : s.table d i with
    | none =>
      obtain ⟨s', own', l', hrun, hH', hdeny, hfree, hrest⟩ := ih hnd hH hself fun j hj =>
        htab j (mem_cons_of_mem i hj)
      have hnone : ∀ f, own f ≠ .table d i := by
        intro f hf
        rw [htab i mem_cons_self, ht] at hf
        cases hf
      refine ⟨s', own', l', (freevmLoop_absent ht).trans hrun, hH', hdeny, ?_, ?_⟩
      · rintro f ⟨j, hj, hf⟩
        rcases mem_cons.1 hj with rfl | hj
        · exact absurd hf (hnone f)
        · exact hfree f ⟨j, hj, hf⟩
      · exact fun f hf => hrest f fun j hj => hf j (mem_cons_of_mem i hj)
    | some t =>
      have hrole := (htab i mem_cons_self t).2 ht
      have htd : d ≠ t := by
        rintro rfl
        rw [hself] at hrole
        cases hrole
      obtain ⟨hfreed, hH₁⟩ := kfree_spec hH (f := t) (by rw [hrole]; nofun) (by rw [hrole]; nofun)
      have hpage : ∀ g, g ≠ t → (s.freed t).page g = s.page g := fun g => s.freed_page_of_ne t
      have hupd : ∀ g, g ≠ t → update own t .free g = own g := fun g hg =>
        update_of_ne hg ..
      obtain ⟨s', own', l', hrun, hH', hdeny, hfree, hrest⟩ := ih hnd hH₁
        ((hupd d htd).trans hself) fun j hj g => by
          rw [Mem.table_of_entry (Mem.entry_of_page (hpage d htd) j)]
          by_cases hg : g = t
          · subst hg
            rw [update_self, ← htab j (mem_cons_of_mem i hj), hrole]
            constructor
            · nofun
            · rintro ⟨⟩
              exact absurd hj hi
          · rw [hupd g hg]
            exact htab j (mem_cons_of_mem i hj) g
      refine ⟨s', own', l', (freevmLoop_present ht (hH.valid t (by rw [hrole]; nofun))).trans hrun,
        hH', hdeny, ?_, ?_⟩
      · rintro f ⟨j, hj, hf⟩
        by_cases hft : f = t
        · subst hft
          rw [(hrest f fun j _ => by rw [update_self]; nofun).1, update_self]
        · rcases mem_cons.1 hj with rfl | hj
          · rw [htab j mem_cons_self, ht] at hf
            exact absurd (Option.some.inj hf).symm hft
          · exact hfree f ⟨j, hj, (hupd f hft).trans hf⟩
      · intro f hf
        have hft : f ≠ t := by
          rintro rfl
          exact hf i mem_cons_self hrole
        obtain ⟨h1, h2⟩ := hrest f fun j hj => by
          rw [hupd f hft]
          exact hf j (mem_cons_of_mem i hj)
        exact ⟨h1.trans (hupd f hft), h2.trans (hpage f hft)⟩

/-- `freevm` frees exactly the pages of the directory. -/
theorem freevm_spec (hH : Heap s own l) (hD : Dir s own d) : ∃ s' own' l',
    freevm d s = .ok ((), s') ∧ Heap s' own' l' ∧ s'.deny = s.deny ∧
    (∀ f, Belongs own d f → own' f = .free) ∧
    ∀ f, ¬ Belongs own d f → own' f = own f ∧ s'.page f = s.page f := by
  obtain ⟨s₁, own₁, l₁, hrun₁, h₁⟩ := deallocuvm_spec KERNBASE 0 hH hD
    (Nat.le_refl _) (by decide)
  have huser : ∀ f u, own f = .user d u → own₁ f = .free := by
    intro f u hf
    obtain ⟨hu, -⟩ := (hD.user f u).1 hf
    refine h₁.free f u hf ⟨?_, ?_, not_skipped_of_aligned s d u (by decide)⟩
    · rw [show pgroundup 0 = 0 from rfl]
      exact Nat.zero_le _
    · dsimp only [KERNBASE]
      omega
  obtain ⟨s₂, own₂, l₂, hrun₂, hH₂, hdeny₂, hfree₂, hrest₂⟩ := freevmLoop_spec
    (List.range NPDENTRIES) nodup_range h₁.heap h₁.dir.self fun i hi t => by
      rw [h₁.dir.table]
      exact ⟨fun h => h.2, fun h => ⟨mem_range.1 hi, h⟩⟩
  have hdir : own₂ d = .dir := by
    rw [(hrest₂ d fun i _ => by rw [h₁.dir.self]; nofun).1, h₁.dir.self]
  obtain ⟨hrun₃, hH₃⟩ := kfree_spec hH₂ (f := d) (by rw [hdir]; nofun) (by rw [hdir]; nofun)
  refine ⟨s₂.freed d, _, _, ?_, hH₃, ?_, fun f hf => ?_, fun f hf => ?_⟩
  · unfold freevm
    rw [seq_ok (discard_ok hrun₁), seq_ok hrun₂]
    exact hrun₃
  · exact hdeny₂.trans h₁.deny
  · by_cases hfd : f = d
    · rw [hfd]
      exact update_self ..
    · rw [update_of_ne hfd]
      rcases hf with hf | ⟨i, hf⟩ | ⟨u, hf⟩
      · exact absurd hf hfd
      · have hi := ((hD.table f i).1 hf).1
        refine hfree₂ f ⟨i, mem_range.2 hi, ?_⟩
        rw [h₁.role f (by rw [hf]; nofun), hf]
      · have h1 := huser f u hf
        rw [(hrest₂ f fun i _ => by rw [h1]; nofun).1, h1]
  · have hfd : f ≠ d := fun e => hf (.inl e)
    have htab : ∀ i, own f ≠ .table d i := fun i hi => hf (.inr (.inl ⟨i, hi⟩))
    have hnot : ∀ u, own f ≠ .user d u := fun u hu => hf (.inr (.inr ⟨u, hu⟩))
    have h1 := h₁.role f fun u hu => absurd hu (hnot u)
    obtain ⟨h2, h3⟩ := hrest₂ f fun i _ => by rw [h1]; exact htab i
    rw [update_of_ne hfd]
    refine ⟨h2.trans h1, ?_⟩
    rw [s₂.freed_page_of_ne d hfd, h3, h₁.page f (fun u hu => absurd hu (hnot u)) htab]

end

/-! ## Memories to try -/

/-- A kernel whose data starts at `0x108000` and ends at `0x110000`. -/
@[reducible] def sampleLayout : Layout where
  data := 0x108000
  kernEnd := 0x110000
  data_aligned := by decide
  text_pos := by decide
  data_le := by decide
  end_le := by decide

/-- The directory 1024 is empty, and of the pages above it the first `n` are free and the others
held. -/
def stock : Nat → Mem
  | 0 => ⟨fun _ _ => 0, none, fun _ => false⟩
  | n + 1 => (stock n).freed (1025 + n)

def stockOwn (n f : Nat) : Role :=
  if f = 1024 then .dir else if f < 1024 ∨ 0xE000 ≤ f then .outside
  else if f < 1025 + n then .free else .held

theorem stock_page (n : Nat) : (stock n).page 1024 = fun _ => 0 := by
  induction n with
  | zero => rfl
  | succ n ih => exact ((stock n).freed_page_of_ne (1025 + n) (by omega)).trans ih

theorem stock_deny (n : Nat) : (stock n).deny = fun _ => false := by
  induction n with
  | zero => rfl
  | succ n ih => exact ih

theorem stock_table (n i : Nat) : (stock n).table 1024 i = none := by
  have hentry : (stock n).entry 1024 i = 0 := by
    unfold Mem.entry
    rw [stock_page]
    exact Fs.Bytes.word_zero i
  unfold Mem.table
  rw [hentry, if_neg not_present_zero]

theorem stock_pte (n v : Nat) : (stock n).pte 1024 v = 0 := Mem.pte_of_none (stock_table n (v / 1024))

theorem stock_dir (n : Nat) : Dir (stock n) (stockOwn n) 1024 := by
  have hrole : ∀ f, stockOwn n f = .dir ∨ stockOwn n f = .outside ∨ stockOwn n f = .free ∨
      stockOwn n f = .held := by
    intro f
    unfold stockOwn
    split
    · exact .inl rfl
    · split
      · exact .inr (.inl rfl)
      · split
        · exact .inr (.inr (.inl rfl))
        · exact .inr (.inr (.inr rfl))
  refine ⟨⟨rfl, fun t i => ⟨fun h => ?_, fun h => ?_⟩⟩, fun f v => ⟨fun h => ?_, fun h => ?_⟩⟩
  · rcases hrole t with h1 | h1 | h1 | h1 <;> cases h1.symm.trans h
  · rw [stock_table] at h
    cases h.2
  · rcases hrole f with h1 | h1 | h1 | h1 <;> cases h1.symm.trans h
  · rw [stock_pte] at h
    exact absurd h.2.1 not_present_zero

theorem stock_heap (n : Nat) (hn : n ≤ 0x8000) :
    ∃ l, l.length = n ∧ @Heap sampleLayout (stock n) (stockOwn n) l := by
  let _ : Layout := sampleLayout
  induction n with
  | zero =>
    refine ⟨[], rfl, rfl, fun f => ⟨fun h => ?_, nofun⟩, fun f h => ?_⟩
    · unfold stockOwn at h
      split at h
      · cases h
      · split at h
        · cases h
        · split at h
          · omega
          · cases h
    · have hf : 1024 ≤ f ∧ f < 0xE000 := by
        unfold stockOwn at h
        split at h
        · omega
        · split at h
          · exact absurd rfl h
          · omega
      show ¬ (PGSIZE * f < 0x110000 ∨ PHYSTOP ≤ PGSIZE * f)
      dsimp only [PGSIZE, PHYSTOP]
      omega
  | succ n ih =>
    obtain ⟨l, hl, hH⟩ := ih (by omega)
    have hheld : stockOwn n (1025 + n) = .held := by
      unfold stockOwn
      rw [if_neg (by omega), if_neg (by omega), if_neg (by omega)]
    have hown : stockOwn (n + 1) = update (stockOwn n) (1025 + n) .free := by
      funext f
      by_cases hf : f = 1025 + n
      · rw [hf, update_self]
        unfold stockOwn
        rw [if_neg (by omega), if_neg (by omega), if_pos (by omega)]
      · rw [update_of_ne hf]
        unfold stockOwn
        split
        · rfl
        · split
          · rfl
          · by_cases hlt : f < 1025 + n
            · rw [if_pos hlt, if_pos (by omega)]
            · rw [if_neg hlt, if_neg (by omega)]
    refine ⟨(1025 + n) :: l, by rw [length_cons, hl], ?_⟩
    rw [hown]
    exact hH.freed (by rw [hheld]; nofun) (by rw [hheld]; nofun)

/-- The directory 1024 has one table, page 1025 for the index 1, and that maps the page number 1024
to the page 1026.  No page is free. -/
def sparse : Mem :=
  ((⟨fun _ _ => 0, none, fun _ => false⟩ : Mem).setEntry 1024 1 (4096 * 1025 + 7)).setEntry 1025 0
    (4096 * 1026 + 7)

def sparseOwn (f : Nat) : Role :=
  if f = 1024 then .dir else if f = 1025 then .table 1024 1
  else if f = 1026 then .user 1024 1024 else .outside

theorem sparse_table (i : Nat) : sparse.table 1024 i = if i = 1 then some 1025 else none := by
  have hentry : sparse.entry 1024 i = if i = 1 then 4096 * 1025 + 7 else 0 := by
    unfold sparse
    rw [Mem.entry_setEntry_page _ _ (by decide)]
    split
    · next h =>
      rw [h, Mem.entry_setEntry_self _ _ _ (by decide)]
    · next h =>
      rw [Mem.entry_setEntry_of_ne _ _ _ h]
      exact Fs.Bytes.word_zero i
  unfold Mem.table
  rw [hentry]
  split <;> decide

theorem sparse_pte (v : Nat) :
    sparse.pte 1024 v = if v = 1024 then 4096 * 1026 + 7 else 0 := by
  have hentry : ∀ j, sparse.entry 1025 j = if j = 0 then 4096 * 1026 + 7 else 0 := by
    intro j
    unfold sparse
    split
    · next h =>
      rw [h, Mem.entry_setEntry_self _ _ _ (by decide)]
    · next h =>
      rw [Mem.entry_setEntry_of_ne _ _ _ h, Mem.entry_setEntry_page _ _ (by decide)]
      exact Fs.Bytes.word_zero j
  have htab := sparse_table (v / 1024)
  by_cases h1 : v / 1024 = 1
  · rw [if_pos h1] at htab
    rw [Mem.pte_of_table htab, hentry]
    by_cases h2 : v = 1024
    · rw [if_pos (by omega), if_pos h2]
    · rw [if_neg (by omega), if_neg h2]
  · rw [if_neg h1] at htab
    rw [Mem.pte_of_none htab, if_neg (by omega)]

theorem sparse_heap : @Heap sampleLayout sparse sparseOwn [] := by
  refine @Heap.mk sampleLayout _ _ _ rfl (fun f => ⟨fun h => ?_, nofun⟩) fun f h => ?_
  · unfold sparseOwn at h
    split at h
    · cases h
    · split at h
      · cases h
      · split at h <;> cases h
  · have hf : 1024 ≤ f ∧ f ≤ 1026 := by
      unfold sparseOwn at h
      split at h
      · omega
      · split at h
        · omega
        · split at h
          · omega
          · exact absurd rfl h
    show ¬ (PGSIZE * f < 0x110000 ∨ PHYSTOP ≤ PGSIZE * f)
    dsimp only [PGSIZE, PHYSTOP]
    omega

theorem sparse_dir : Dir sparse sparseOwn 1024 := by
  refine ⟨⟨rfl, fun t i => ?_⟩, fun f v => ?_⟩
  · rw [sparse_table]
    unfold sparseOwn
    constructor
    · intro h
      split at h
      · cases h
      · split at h
        · next ht =>
          cases h
          exact ⟨by decide, by rw [if_pos rfl, ht]⟩
        · split at h <;> cases h
    · rintro ⟨-, h⟩
      split at h
      · next hi =>
        cases h
        rw [hi]
        rfl
      · cases h
  · constructor
    · intro h
      unfold sparseOwn at h
      split at h
      · cases h
      · split at h
        · cases h
        · split at h
          · next hf =>
            cases h
            rw [sparse_pte, if_pos rfl, hf]
            exact ⟨by decide, by decide, by decide⟩
          · cases h
    · rintro ⟨hv, hp, ha⟩
      rw [sparse_pte] at hp ha
      split at hp
      · next hv' =>
        rw [if_pos hv'] at ha
        have hf : f = 1026 := ha.symm
        rw [hf, hv']
        rfl
      · exact absurd hp not_present_zero

/-! ## The range -/

/-- Every present page of the range is cleared and free, no other entry has changed and no other page
is free that was not. -/
structure RangeFreed (d oldsz newsz : Nat) (s : Mem) (l : List Nat) (s' : Mem) (l' : List Nat) :
    Prop where
  freed : ∀ u < 2 ^ 20, pgroundup newsz ≤ 4096 * u → 4096 * u < oldsz → Present (s.pte d u) →
    s'.pte d u = 0 ∧ pteAddr (s.pte d u) ∈ l'
  kept : ∀ u < 2 ^ 20, ¬ (pgroundup newsz ≤ 4096 * u ∧ 4096 * u < oldsz ∧ Present (s.pte d u)) →
    s'.pte d u = s.pte d u
  root : ∀ i, s'.entry d i = s.entry d i
  free : ∀ f, f ∈ l' ↔ f ∈ l ∨ ∃ u, pgroundup newsz ≤ 4096 * u ∧ 4096 * u < oldsz ∧
    Present (s.pte d u) ∧ pteAddr (s.pte d u) = f

/-- `deallocuvm` returns, and it frees exactly the range if and only if no present page of the range
is skipped: with no page table for `PGROUNDUP(newsz)`, the walk comes into the first table it finds
at the same place, and not at its start. -/
theorem deallocuvm_range [Layout] (s : Mem) (own : Nat → Role) (l : List Nat) (d oldsz newsz : Nat)
    (hH : Heap s own l) (hD : Dir s own d) (hold : oldsz ≤ KERNBASE) (hnew : newsz < oldsz) :
    ∃ s' l', deallocuvm d oldsz newsz s = .ok (newsz, s') ∧ Chain s'.next s'.freelist l' ∧
      (RangeFreed d oldsz newsz s l s' l' ↔ ∀ u, pgroundup newsz ≤ 4096 * u → 4096 * u < oldsz →
        Present (s.pte d u) → ¬ s.Skipped d (pgroundup newsz / 4096) u) := by
  obtain ⟨s', own', l', hrun, h⟩ := deallocuvm_spec oldsz newsz hH hD hold hnew
  refine ⟨s', l', hrun, h.heap.chain, fun hr u h1 h2 hp hs => ?_, fun hno => ?_⟩
  · -- a skipped page is still mapped
    have hu : u < 2 ^ 20 := by
      dsimp only [KERNBASE] at hold
      omega
    have hkept := h.kept u hu fun hc => hc.1.2.2 hs
    rw [(hr.freed u hu h1 h2 hp).1] at hkept
    rw [← hkept] at hp
    exact not_present_zero hp
  · have huser : ∀ u, pgroundup newsz ≤ 4096 * u → 4096 * u < oldsz → Present (s.pte d u) →
        own' (pteAddr (s.pte d u)) = .free := by
      intro u h1 h2 hp
      have hu : u < 2 ^ 19 := by
        dsimp only [KERNBASE] at hold
        omega
      exact h.free _ u ((hD.user _ u).2 ⟨hu, hp, rfl⟩) ⟨h1, h2, hno u h1 h2 hp⟩
    refine ⟨fun u hu h1 h2 hp => ⟨?_, ?_⟩, fun u hu hn => ?_, fun i => ?_, fun f => ?_⟩
    · exact h.cleared u hu ⟨h1, h2, hno u h1 h2 hp⟩ hp
    · exact (h.heap.free _).1 (huser u h1 h2 hp)
    · exact h.kept u hu fun hc => hn ⟨hc.1.1, hc.1.2.1, hc.2⟩
    · exact Mem.entry_of_page h.root i
    · rw [← h.heap.free, ← hH.free]
      constructor
      · intro hf
        by_cases hu : ∃ u, own f = .user d u ∧ pgroundup newsz ≤ 4096 * u ∧ 4096 * u < oldsz
        · obtain ⟨u, hfu, h1, h2⟩ := hu
          obtain ⟨-, hp, ha⟩ := (hD.user f u).1 hfu
          exact .inr ⟨u, h1, h2, hp, ha⟩
        · left
          rw [← h.role f fun u hfu hP => hu ⟨u, hfu, hP.1, hP.2.1⟩]
          exact hf
      · rintro (hf | ⟨u, h1, h2, hp, rfl⟩)
        · rw [h.role f (by rw [hf]; nofun)]
          exact hf
        · exact huser u h1 h2 hp

/-- The one page of the directory is freed. -/
theorem deallocuvm_range_page : ∃ (_ : Layout) (s s' : Mem) (l' : List Nat),
    Present (s.pte 1024 1024) ∧ deallocuvm 1024 (4096 * 1025) 0 s = .ok (0, s') ∧
    RangeFreed 1024 (4096 * 1025) 0 s [] s' l' := by
  let _ : Layout := sampleLayout
  obtain ⟨s', l', hrun, -, hiff⟩ := deallocuvm_range sparse sparseOwn [] 1024 (4096 * 1025) 0
    sparse_heap sparse_dir (by decide) (by decide)
  refine ⟨sampleLayout, sparse, s', l', ?_, hrun, hiff.2 fun u _ _ _ => ?_⟩
  · rw [sparse_pte, if_pos rfl]
    decide
  · exact not_skipped_of_aligned sparse 1024 u (by decide)

/-- Shrinking to one page jumps over the page at 4 MB. -/
theorem deallocuvm_skips : ∃ (_ : Layout) (s s' : Mem) (own : Nat → Role) (l : List Nat),
    Heap s own l ∧ Dir s own 1024 ∧ deallocuvm 1024 (4096 * 1025) 4096 s = .ok (4096, s') ∧
    Present (s'.pte 1024 1024) := by
  let _ : Layout := sampleLayout
  obtain ⟨s', own', l', hrun, h⟩ := deallocuvm_spec (4096 * 1025) 4096
    sparse_heap sparse_dir (by decide) (by decide)
  refine ⟨sampleLayout, sparse, s', sparseOwn, [], sparse_heap, sparse_dir, hrun, ?_⟩
  have hskip : sparse.Skipped 1024 (pgroundup 4096 / 4096) 1024 := by
    refine ⟨by decide, by decide, fun j hj hj' => ?_⟩
    have hup : pgroundup 4096 / 4096 / 1024 = 0 := by decide
    rw [sparse_table, if_neg (by omega)]
  rw [h.kept 1024 (by decide) fun hc => hc.1.2.2 hskip, sparse_pte, if_pos rfl]
  decide

end Xv6.Vm
