import Xv6.Vm.Dealloc

/-!
# Growing an address space

A user page is taken from the allocator, filled and mapped (`grow_page`); mapping it may take one
more page, for a table.  `Grown` says what a run of such steps leaves.  `plan` lists the calls of
`kalloc` that the growth makes as long as all succeed: the first one that fails decides what becomes
of `allocuvm`, which gives everything back when it gets no user page, but goes on, with the user
page lost, when it gets no page for a table.
-/

namespace Xv6.Vm

open Function List
open Fs (Bytes)

/-! ## Taking one user page -/

/-- The user pages from `v` on, `m` of them, are mapped to pages that were free, with the flags
`perm` and the contents `val`, in `c` calls of `kalloc`. -/
structure Grown [Layout] (d v m : Nat) (perm : Nat → Nat) (val : Nat → Bytes) (c : Nat) (s : Mem)
    (own : Nat → Role) (l : List Nat) (s' : Mem) (own' : Nat → Role) (l' : List Nat) : Prop where
  heap : Heap s' own' l'
  dir : Dir s' own' d
  pte : ∀ u < 2 ^ 20, ¬ (v ≤ u ∧ u < v + m) → s'.pte d u = s.pte d u
  new : ∀ u, v ≤ u → u < v + m → ∃ f, own f = .free ∧ own' f = .user d u ∧
    s'.pte d u = mkpte f (perm u) ∧ s'.page f = val u
  table : ∀ i, s.table d i ≠ none → s'.table d i = s.table d i
  range : ∀ i, s'.table d i ≠ none → s.table d i ≠ none ∨ ∃ u, v ≤ u ∧ u < v + m ∧ u / 1024 = i
  page : ∀ f, own f ≠ .free → f ≠ d → (∀ i, own f ≠ .table d i) → s'.page f = s.page f
  role : ∀ f, own f ≠ .free → own' f = own f
  fresh : ∀ f, own f = .free → own' f = .free ∨ (∃ i, own' f = .table d i) ∨ ∃ u, own' f = .user d u
  took : Took c s l s' l'

section
variable [Layout] {s s₁ s' : Mem} {own own₁ own' : Nat → Role} {l l₁ l' : List Nat}
  {d v f m n c c' : Nat} {perm : Nat → Nat} {val : Nat → Bytes}

theorem Grown.refl (hH : Heap s own l) (hD : Dir s own d) (v : Nat) (perm : Nat → Nat)
    (val : Nat → Bytes) : Grown d v 0 perm val 0 s own l s own l :=
  ⟨hH, hD, fun _ _ _ => rfl, fun u h1 h2 => by omega, fun _ _ => rfl, fun _ hi => .inl hi,
    fun _ _ _ _ => rfl, fun _ _ => rfl, fun _ hf => .inl hf, .refl ..⟩

theorem Grown.trans (h : Grown d v m perm val c s own l s₁ own₁ l₁)
    (h' : Grown d (v + m) n perm val c' s₁ own₁ l₁ s' own' l') :
    Grown d v (m + n) perm val (c + c') s own l s' own' l' := by
  have hself : ∀ f, own f ≠ .free → own₁ f ≠ .free := fun f hf => by rwa [h.role f hf]
  refine ⟨h'.heap, h'.dir, fun u hu hn => ?_, fun u h1 h2 => ?_, fun i hi => ?_, fun i hi => ?_,
    fun f hf hd ht => ?_, fun f hf => ?_, fun f hf => ?_, h.took.trans h'.took⟩
  · rw [h'.pte u hu (by omega), h.pte u hu (by omega)]
  · by_cases hu : u < v + m
    · obtain ⟨f, hfree, huser, hpte, hval⟩ := h.new u h1 hu
      have hlt := ((h.dir.user f u).1 huser).1
      refine ⟨f, hfree, ?_, ?_, ?_⟩
      · rw [h'.role f (by rw [huser]; nofun), huser]
      · rw [h'.pte u (by omega) (by omega), hpte]
      · rw [h'.page f (by rw [huser]; nofun) ?_ (by rw [huser]; nofun), hval]
        rintro rfl
        rw [h.dir.self] at huser
        cases huser
    · obtain ⟨f, hfree, hrest⟩ := h'.new u (by omega) (by omega)
      refine ⟨f, ?_, hrest⟩
      by_contra hne
      exact hself f hne hfree
  · rw [h'.table i (by rw [h.table i hi]; exact hi), h.table i hi]
  · rcases h'.range i hi with h1 | h1
    · rcases h.range i h1 with h2 | ⟨u, h2, h3, h4⟩
      · exact .inl h2
      · exact .inr ⟨u, h2, by omega, h4⟩
    · obtain ⟨u, h2, h3, h4⟩ := h1
      exact .inr ⟨u, by omega, by omega, h4⟩
  · have ho := h.role f hf
    rw [h'.page f (by rwa [ho]) hd (by rwa [ho]), h.page f hf hd ht]
  · rw [h'.role f (hself f hf), h.role f hf]
  · rcases h.fresh f hf with h1 | h1
    · exact h'.fresh f h1
    · have hne : own₁ f ≠ .free := by
        rcases h1 with ⟨i, hi⟩ | ⟨u, hu⟩
        · rw [hi]; nofun
        · rw [hu]; nofun
      rw [h'.role f hne]
      exact .inr h1

/-- `kalloc` has returned the page `f` and its contents are written. -/
def Mem.taken (s : Mem) (f : Nat) (p : Bytes) : Mem := (s.popped f).setPage f p

omit [Layout] in
theorem Mem.taken_page_of_ne (s : Mem) (p : Bytes) {g : Nat} (h : g ≠ f) :
    (s.taken f p).page g = s.page g := Mem.setPage_of_ne _ f p h

/-- A page on its way does not matter to the directory. -/
theorem taken_spec (hH : Heap s own (f :: l)) (hD : Dir s own d) (p : Bytes) :
    Heap (s.taken f p) (update own f .held) l ∧
    Dir (s.taken f p) (update own f .held) d ∧
    (∀ i, (s.taken f p).table d i = s.table d i) ∧
    ∀ u < 2 ^ 20, (s.taken f p).pte d u = s.pte d u := by
  have hfree : own f = .free := (hH.free f).2 mem_cons_self
  have hupd : ∀ g, g ≠ f → update own f .held g = own g := fun g hg =>
    update_of_ne hg ..
  have hne : ∀ g, (g = d ∨ ∃ i, own g = .table d i) → g ≠ f := by
    rintro g hg rfl
    rcases hg with rfl | ⟨i, hi⟩
    · rw [hD.self] at hfree
      cases hfree
    · rw [hi] at hfree
      cases hfree
  have hiff : ∀ g (r : Role), r ≠ .held → r ≠ .free →
      (update own f .held g = r ↔ own g = r) := by
    intro g r h1 h2
    by_cases hg : g = f
    · rw [hg, update_self, hfree]
      exact ⟨fun h => absurd h.symm h1, fun h => absurd h.symm h2⟩
    · rw [hupd g hg]
  have hpage : ∀ g, (g = d ∨ ∃ i, own g = .table d i) → (s.taken f p).page g = s.page g :=
    fun g hg => s.taken_page_of_ne p (hne g hg)
  refine ⟨hH.popped.setPage (by rw [update_self]; nofun) p, ?_⟩
  obtain ⟨hdir, hpte⟩ := hD.congr hpage (fun g i => hiff g _ nofun nofun)
    (fun g u => hiff g _ nofun nofun) ((hupd d (hne d (.inl rfl))).trans hD.self)
  exact ⟨hdir, fun i => Mem.table_of_entry (Mem.entry_of_page (hpage d (.inl rfl)) i), hpte⟩

/-- The page on its way is mapped as a user page. -/
theorem grow_page (perm : Nat → Nat) (val : Nat → Bytes) (hH : Heap s own (f :: l))
    (hD : Dir s own d) (hd : s.deny 0 = false) (hv : v < 2 ^ 19) (hnp : ¬ Present (s.pte d v)) (hp : perm v < 4096) :
    (∃ s' own' l', mappages d (4096 * v) PGSIZE (PGSIZE * f) (perm v) (s.taken f (val v)) =
        .ok (true, s') ∧
      Grown d v 1 perm val (1 + if s.table d (v / 1024) = none then 1 else 0) s own (f :: l) s' own'
        l') ∨
    (mappages d (4096 * v) PGSIZE (PGSIZE * f) (perm v) (s.taken f (val v)) =
        .ok (false, (s.taken f (val v)).pass) ∧
      (s.taken f (val v)).Dry l ∧ s.table d (v / 1024) = none) := by
  obtain ⟨hH₁, hD₁, htab₁, hpte₁⟩ := taken_spec hH hD (val v)
  have hfree : own f = .free := (hH.free f).2 mem_cons_self
  have hf20 : f < 2 ^ 20 := hH.lt_of_role (by rw [hfree]; nofun)
  have hfd : f ≠ d := by
    rintro rfl
    rw [hD.self] at hfree
    cases hfree
  have hv20 : v < 2 ^ 20 := by omega
  rcases mappages_page hH₁ hD₁.toTables hp hv20 hf20 (by rwa [hpte₁ v hv20]) with
    ⟨c, s', own₂, l', hrun, hm, hc⟩ | ⟨hrun, hdry, hnone⟩
  · left
    have hheld : own₂ f = .held := by
      rw [hm.maps.own_eq (by rw [update_self]; nofun), update_self]
    have hold : ∀ g, g ≠ f → own g ≠ .free → own₂ g = own g := by
      intro g hg hgf
      have hg' : update own f .held g = own g := update_of_ne hg ..
      rw [hm.maps.own_eq (by rwa [hg']), hg']
    have hupd : ∀ g, g ≠ f → update own₂ f (.user d v) g = own₂ g := fun g hg =>
      update_of_ne hg ..
    have hpte : ∀ u < 2 ^ 20, s'.pte d u = if u = v then mkpte f (perm v) else s.pte d u := by
      intro u hu
      rw [hm.pte u hu, hpte₁ u hu]
      by_cases he : u = v
      · rw [if_pos he, if_pos (by omega), he, Nat.sub_self, Nat.add_zero]
      · rw [if_neg he, if_neg (by omega)]
    -- the roles of user pages before, and the tables, are as they were
    have huser₂ : ∀ g u, own₂ g = .user d u ↔ own g = .user d u := by
      intro g u
      by_cases hg : g = f
      · rw [hg, hheld, hfree]
        exact ⟨nofun, nofun⟩
      · have hg' : update own f .held g = own g := update_of_ne hg ..
        rcases hm.maps.own g with ho | ⟨hgfree, i, hi⟩
        · rw [ho, hg']
        · rw [hi, ← hg', hgfree]
          exact ⟨nofun, nofun⟩
    refine ⟨s', update own₂ f (.user d v), l', hrun, ?_,
      ⟨⟨?_, fun t i => ?_⟩, fun g u => ?_⟩, ?_, ?_, ?_, ?_, ?_, ?_, ?_, ?_⟩
    · exact hm.heap.assign (by rw [hheld]; nofun) (by rw [hheld]; nofun) nofun
    · rw [hupd d hfd.symm]
      exact hm.tabs.self
    · by_cases ht : t = f
      · subst ht
        rw [update_self, ← hm.tabs.table, hheld]
        exact ⟨nofun, nofun⟩
      · rw [hupd t ht, hm.tabs.table]
    · by_cases hg : g = f
      · subst hg
        rw [update_self]
        constructor
        · rintro ⟨⟩
          rw [hpte v (by omega), if_pos rfl]
          exact ⟨hv, present_mkpte hp, pteAddr_mkpte hp⟩
        · rintro ⟨hu, hpu, hau⟩
          by_cases he : u = v
          · rw [he]
          · rw [hpte u (by omega), if_neg he] at hpu hau
            have := (hD.user g u).2 ⟨hu, hpu, hau⟩
            rw [hfree] at this
            cases this
      · rw [hupd g hg, huser₂, hD.user]
        constructor
        · rintro ⟨hu, hpu, hau⟩
          have he : u ≠ v := by
            rintro rfl
            exact hnp hpu
          rw [hpte u (by omega), if_neg he]
          exact ⟨hu, hpu, hau⟩
        · rintro ⟨hu, hpu, hau⟩
          by_cases he : u = v
          · rw [hpte u (by omega), if_pos he, pteAddr_mkpte hp] at hau
            exact absurd hau.symm hg
          · rw [hpte u (by omega), if_neg he] at hpu hau
            exact ⟨hu, hpu, hau⟩
    · intro u hu hn
      rw [hpte u hu, if_neg (by omega)]
    · intro u h1 h2
      obtain rfl : u = v := by omega
      refine ⟨f, hfree, update_self .., by rw [hpte u (by omega), if_pos rfl], ?_⟩
      rw [hm.maps.page f (by rw [update_self]; nofun) hfd
        (by rw [update_self]; nofun)]
      exact Mem.setPage_self _ f _
    · intro i hi
      rw [hm.table i (by rwa [htab₁]), htab₁]
    · intro i hi
      rcases hm.range i hi with h1 | h1
      · rw [htab₁] at h1
        exact .inl h1
      · exact .inr ⟨v, by omega, by omega, by omega⟩
    · intro g hgf hgd hgt
      have hg : g ≠ f := by
        rintro rfl
        exact hgf hfree
      have hg' : update own f .held g = own g := update_of_ne hg ..
      rw [hm.maps.page g (by rwa [hg']) hgd (by rwa [hg']), s.taken_page_of_ne _ hg]
    · intro g hgf
      have hg : g ≠ f := by
        rintro rfl
        exact hgf hfree
      rw [hupd g hg, hold g hg hgf]
    · intro g hgf
      by_cases hg : g = f
      · subst hg
        exact .inr (.inr ⟨v, update_self ..⟩)
      · rw [hupd g hg]
        have hg' : update own f .held g = own g := update_of_ne hg ..
        rcases hm.maps.own g with ho | ⟨-, i, hi⟩
        · exact .inl (by rw [ho, hg', hgf])
        · exact .inr (.inl ⟨i, hi⟩)
    · rw [htab₁] at hc
      rw [← hc]
      have htaken : Took 1 s (f :: l) (s.taken f (val v)) l := (Took.popped hd).of_deny rfl
      exact htaken.trans hm.took
  · right
    rw [htab₁] at hnone
    exact ⟨hrun, hdry, hnone⟩

/-- The table of the next page is missing if it was missing before and no page of it is mapped
yet. -/
theorem Grown.table_none (h : Grown d v m perm val c s own l s₁ own₁ l₁)
    (hp : ∀ u, perm u < 4096) : s₁.table d ((v + m) / 1024) = none ↔
      s.table d ((v + m) / 1024) = none ∧ (m = 0 ∨ (v + m) % 1024 = 0) := by
  constructor
  · intro hn
    refine ⟨?_, ?_⟩
    · by_contra hs
      rw [h.table _ hs] at hn
      exact hs hn
    · by_contra hm
      obtain ⟨f, -, -, hpte, -⟩ := h.new (v + m - 1) (by omega) (by omega)
      have hpres : Present (s₁.pte d (v + m - 1)) := by
        rw [hpte]
        exact present_mkpte (hp _)
      obtain ⟨t, ht⟩ := Mem.exists_table hpres
      rw [show (v + m - 1) / 1024 = (v + m) / 1024 by omega, hn] at ht
      cases ht
  · rintro ⟨hs, hm⟩
    by_contra hn
    rcases h.range _ hn with h1 | ⟨u, h1, h2, h3⟩
    · exact h1 hs
    · omega

/-! ## What does not concern a directory -/

/-- Only free pages and the pages of `d` have changed, and a page that has got a role is a page of
`d`, free or held. -/
structure Local [Layout] (d : Nat) (s : Mem) (own : Nat → Role) (s' : Mem) (own' : Nat → Role)
    (l' : List Nat) : Prop where
  heap : Heap s' own' l'
  dir : Dir s' own' d
  role : ∀ f, own f ≠ .free → ¬ Belongs own d f → own' f = own f
  page : ∀ f, own f ≠ .free → ¬ Belongs own d f → s'.page f = s.page f
  back : ∀ f, own' f ≠ own f → own' f = .free ∨ own' f = .held ∨ Belongs own' d f

/-- As `Local`, but what the allocator does not know may have been written to as well. -/
structure Within [Layout] (d : Nat) (s : Mem) (own : Nat → Role) (s' : Mem) (own' : Nat → Role)
    (l' : List Nat) : Prop where
  heap : Heap s' own' l'
  dir : Dir s' own' d
  role : ∀ f, own f ≠ .free → ¬ Belongs own d f → own' f = own f
  page : ∀ f, own f ≠ .free → own f ≠ .outside → ¬ Belongs own d f → s'.page f = s.page f
  back : ∀ f, own' f ≠ own f → own' f = .free ∨ own' f = .held ∨ Belongs own' d f

theorem Local.within (h : Local d s own s' own' l') : Within d s own s' own' l' :=
  ⟨h.heap, h.dir, h.role, fun f hf _ => h.page f hf, h.back⟩

omit [Layout] in
theorem Belongs.of_role (h : own' f = own f) : Belongs own' d f ↔ Belongs own d f := by
  unfold Belongs
  rw [h]

theorem Within.trans (h : Within d s own s₁ own₁ l₁) (h' : Within d s₁ own₁ s' own' l') :
    Within d s own s' own' l' := by
  refine ⟨h'.heap, h'.dir, fun f hf hb => ?_, fun f hf ho hb => ?_, fun f hne => ?_⟩
  · have he := h.role f hf hb
    rw [h'.role f (by rwa [he]) (mt (Belongs.of_role he).1 hb), he]
  · have he := h.role f hf hb
    rw [h'.page f (by rwa [he]) (by rwa [he]) (mt (Belongs.of_role he).1 hb), h.page f hf ho hb]
  · by_cases he : own' f = own₁ f
    · rw [Belongs.of_role he, he]
      apply h.back f
      rwa [← he]
    · exact h'.back f he

theorem Local.trans (h : Local d s own s₁ own₁ l₁) (h' : Local d s₁ own₁ s' own' l') :
    Local d s own s' own' l' := by
  have hw := h.within.trans h'.within
  refine ⟨hw.heap, hw.dir, hw.role, fun f hf hb => ?_, hw.back⟩
  have he := h.role f hf hb
  rw [h'.page f (by rwa [he]) (mt (Belongs.of_role he).1 hb), h.page f hf hb]

theorem Grown.loc (h : Grown d v m perm val c s own l s' own' l') : Local d s own s' own' l' := by
  refine ⟨h.heap, h.dir, fun f hf _ => h.role f hf, fun f hf hb => ?_, fun f hne => ?_⟩
  · exact h.page f hf (fun e => hb (.inl e)) fun i hi => hb (.inr (.inl ⟨i, hi⟩))
  · have hfree : own f = .free := by
      by_contra hf
      exact hne (h.role f hf)
    rcases h.fresh f hfree with h1 | h1
    · exact .inl h1
    · exact .inr (.inr (.inr h1))

theorem Freed.loc {P : Nat → Prop} (h : Freed d P s own s' own' l') : Local d s own s' own' l' := by
  have huser : ∀ f, ¬ Belongs own d f → ∀ u, own f = .user d u → ¬ P u := fun f hb u hu =>
    absurd (.inr (.inr ⟨u, hu⟩)) hb
  refine ⟨h.heap, h.dir, fun f _ hb => h.role f (huser f hb), fun f _ hb => ?_, fun f hne => ?_⟩
  · exact h.page f (huser f hb) fun i hi => hb (.inr (.inl ⟨i, hi⟩))
  · left
    by_contra hf
    exact hne (h.role f fun u hu hP => hf (h.free f u hu hP))

omit [Layout] in
theorem Dir.pass (h : Dir s own d) : Dir s.pass own d := by
  have hpage : ∀ g, (g = d ∨ ∃ i, own g = .table d i) → s.pass.page g = s.page g := fun _ _ => rfl
  exact (h.congr hpage (fun _ _ => Iff.rfl) (fun _ _ => Iff.rfl) h.self).1

theorem Local.refl (hH : Heap s own l) (hD : Dir s own d) : Local d s own s own l :=
  ⟨hH, hD, fun _ _ _ => rfl, fun _ _ _ => rfl, fun _ h => absurd rfl h⟩

theorem Local.pass (hH : Heap s own l) (hD : Dir s own d) : Local d s own s.pass own l :=
  ⟨hH.pass, hD.pass, fun _ _ _ => rfl, fun _ _ _ => rfl, fun _ h => absurd rfl h⟩

/-- A page is taken and the next call fails. -/
theorem taken_loc (hH : Heap s own (f :: l)) (hD : Dir s own d) (p : Bytes) :
    Local d s own (s.taken f p).pass (update own f .held) l := by
  obtain ⟨hH₁, hD₁, -⟩ := taken_spec hH hD p
  have hfree : own f = .free := (hH.free f).2 mem_cons_self
  have hne : ∀ g, own g ≠ .free → g ≠ f := by
    rintro g hg rfl
    exact hg hfree
  refine ⟨hH₁.pass, hD₁.pass, fun g hg _ => update_of_ne (hne g hg) .., fun g hg _ => ?_,
    fun g hg => ?_⟩
  · exact s.taken_page_of_ne p (hne g hg)
  · by_cases he : g = f
    · rw [he, update_self]
      exact .inr (.inl rfl)
    · exact absurd (update_of_ne he ..) hg

theorem Local.held (h : Local d s own s' own' l') (hself : own d = .dir) (hf : own f = .held) :
    own' f = .held := by
  rw [h.role f (by rw [hf]; nofun) fun hb => (hb.used hself).2.2 hf, hf]

/-- Another directory stays as it is, with all its pages. -/
theorem Within.other {p : Nat} (h : Within d s own s' own' l') (hd : own d = .free ∨ own d = .dir)
    (hP : Dir s own p) (hne : p ≠ d) : Dir s' own' p ∧ (∀ i, s'.table p i = s.table p i) ∧
    (∀ u < 2 ^ 20, s'.pte p u = s.pte p u) ∧
    ∀ f, Belongs own p f → own' f = own f ∧ s'.page f = s.page f := by
  have hkeep : ∀ f, Belongs own p f → own' f = own f ∧ s'.page f = s.page f := by
    intro f hf
    obtain ⟨h1, h2, -⟩ := hf.used hP.self
    have h3 := hf.unique hP.self hd hne
    exact ⟨h.role f h1 h3, h.page f h1 h2 h3⟩
  have hself : own' p = .dir := by rw [(hkeep p (.inl rfl)).1, hP.self]
  -- a page that has changed its role is none of `p`
  have hback : ∀ f, own' f = own f ∨ ¬ Belongs own' p f := by
    intro f
    by_cases he : own' f = own f
    · exact .inl he
    · refine .inr fun hb => ?_
      rcases h.back f he with h1 | h1 | h1
      · exact (hb.used hself).1 h1
      · exact (hb.used hself).2.2 h1
      · exact hb.unique hself (.inr h.dir.self) hne h1
  obtain ⟨hdir, htab, hpte⟩ := hP.keep hkeep hback
  exact ⟨hdir, htab, hpte, hkeep⟩

theorem Local.other {p : Nat} (h : Local d s own s' own' l') (hd : own d = .free ∨ own d = .dir)
    (hP : Dir s own p) (hne : p ≠ d) : Dir s' own' p ∧ (∀ i, s'.table p i = s.table p i) ∧
    (∀ u < 2 ^ 20, s'.pte p u = s.pte p u) ∧
    ∀ f, Belongs own p f → own' f = own f ∧ s'.page f = s.page f :=
  h.within.other hd hP hne

/-! ## The calls of kalloc -/

/-- What a call of `kalloc` asks a page for. -/
inductive Call
  | dir
  | table
  | data
deriving DecidableEq, Repr

/-- The calls for the page `v`, when the pages from `v₀` on are mapped: one for a table if the page is
the first one of a table that is missing. -/
def Mem.calls (s : Mem) (d v₀ v : Nat) : List Call :=
  .data :: if s.table d (v / 1024) = none ∧ (v = v₀ ∨ v % 1024 = 0) then [.table] else []

/-- The calls for `n` pages from `v₀` on, as long as all succeed. -/
def Mem.plan (s : Mem) (d v₀ n : Nat) : List Call := (List.range' v₀ n).flatMap (s.calls d v₀)

omit [Layout] in
theorem plan_append (s : Mem) (d v₀ m n : Nat) :
    s.plan d v₀ (m + n) = s.plan d v₀ m ++ (List.range' (v₀ + m) n).flatMap (s.calls d v₀) := by
  unfold Mem.plan
  rw [← flatMap_append, ← List.range'_append_1]

omit [Layout] in
theorem plan_split (s : Mem) (d v₀ : Nat) {m n : Nat} (h : m < n) : ∃ rest,
    s.plan d v₀ n = s.plan d v₀ m ++ (s.calls d v₀ (v₀ + m) ++ rest) := by
  obtain ⟨k, rfl⟩ : ∃ k, n = m + (k + 1) := ⟨n - m - 1, by omega⟩
  refine ⟨(List.range' (v₀ + m + 1) k).flatMap (s.calls d v₀), ?_⟩
  rw [plan_append, List.range'_succ, flatMap_cons]

omit [Layout] in
theorem plan_succ_length (s : Mem) (d v₀ m : Nat) : (s.plan d v₀ (m + 1)).length =
    (s.plan d v₀ m).length + (s.calls d v₀ (v₀ + m)).length := by
  rw [plan_append, length_append]
  simp

omit [Layout] in
/-- The call for a page of its own comes first. -/
theorem plan_data (s : Mem) (d v₀ : Nat) {m n : Nat} (h : m < n) :
    (s.plan d v₀ n)[(s.plan d v₀ m).length]? = some .data := by
  obtain ⟨rest, hrest⟩ := plan_split s d v₀ h
  rw [hrest, getElem?_append_right (Nat.le_refl _), Nat.sub_self]
  rfl

omit [Layout] in
theorem plan_table (s : Mem) (d v₀ : Nat) {m n : Nat} (h : m < n)
    (hnone : s.table d ((v₀ + m) / 1024) = none) (hfirst : m = 0 ∨ (v₀ + m) % 1024 = 0) :
    (s.plan d v₀ n)[(s.plan d v₀ m).length + 1]? = some .table := by
  obtain ⟨rest, hrest⟩ := plan_split s d v₀ h
  have hcalls : s.calls d v₀ (v₀ + m) = [.data, .table] := by
    unfold Mem.calls
    rw [if_pos ⟨hnone, by omega⟩]
  rw [hrest, hcalls, getElem?_append_right (by omega), Nat.add_sub_cancel_left]
  rfl

/-- Each step of the growth takes the calls that are planned for it. -/
theorem Grown.calls (h : Grown d v m perm val c s own l s₁ own₁ l₁) (hp : ∀ u, perm u < 4096) :
    (s.calls d v (v + m)).length = 1 + if s₁.table d ((v + m) / 1024) = none then 1 else 0 := by
  unfold Mem.calls
  have hiff := h.table_none hp
  by_cases hn : s₁.table d ((v + m) / 1024) = none
  · obtain ⟨h1, h2⟩ := hiff.1 hn
    rw [if_pos hn, if_pos ⟨h1, by omega⟩]
    rfl
  · rw [if_neg hn, if_neg fun hc => hn (hiff.2 ⟨hc.1, by omega⟩)]
    rfl

end

end Xv6.Vm
