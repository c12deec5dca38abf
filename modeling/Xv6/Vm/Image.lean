import Xv6.Vm.Copy

/-!
# A directory under construction

`exec` makes a directory with `setupkvm`, grows it with `allocuvm` and writes to its user pages.
`Image` is what holds of the directory all the while, whichever call of `kalloc` fails.  A page that
`allocuvm` has not been able to map leaves a hole, so that not every page below the size is there.

`copyout` copies all bytes or fails, and what it does to the memory is one equation for the loads of
the user (`copyout_spec`).
-/

namespace Xv6.Vm

open List
open Fs (Bytes)

/-! ## Stores into user pages -/

/-- Only user pages of `d`, and what the allocator does not know, have been written to. -/
structure Wrote (own : Nat → Role) (d : Nat) (s s' : Mem) : Prop where
  freelist : s'.freelist = s.freelist
  deny : s'.deny = s.deny
  page : ∀ f, s'.page f = s.page f ∨ own f = .outside ∨ ∃ v, own f = .user d v

section
variable {s s₁ s' : Mem} {own : Nat → Role} {d q f : Nat}

theorem Wrote.refl (own : Nat → Role) (d : Nat) (s : Mem) : Wrote own d s s :=
  ⟨rfl, rfl, fun _ => .inl rfl⟩

theorem Wrote.trans (h : Wrote own d s s₁) (h' : Wrote own d s₁ s') : Wrote own d s s' := by
  refine ⟨h'.freelist.trans h.freelist, h'.deny.trans h.deny, fun f => ?_⟩
  rcases h'.page f with h1 | h1
  · rw [h1]
    exact h.page f
  · exact .inr h1

theorem Wrote.setPage (hf : own f = .outside ∨ ∃ v, own f = .user d v) (p : Bytes) :
    Wrote own d s (s.setPage f p) := by
  refine ⟨rfl, rfl, fun g => ?_⟩
  by_cases hg : g = f
  · rw [hg]
    exact .inr hf
  · exact .inl (s.setPage_of_ne f p hg)

/-- Directories and their tables are not written to. -/
theorem Wrote.dir (h : Wrote own d s s') (hq : Dir s own q) :
    Dir s' own q ∧ (∀ i, s'.table q i = s.table q i) ∧ ∀ v < 2 ^ 20, s'.pte q v = s.pte q v := by
  have hpage : ∀ f, f = q ∨ (∃ i, own f = .table q i) → s'.page f = s.page f := by
    intro f hf
    have hrole : own f = .dir ∨ ∃ i, own f = .table q i := by
      rcases hf with rfl | hf
      · exact .inl hq.self
      · exact .inr hf
    rcases h.page f with h1 | h1 | ⟨v, h1⟩
    · exact h1
    · rw [h1] at hrole
      rcases hrole with hr | ⟨i, hr⟩
      · cases hr
      · cases hr
    · rw [h1] at hrole
      rcases hrole with hr | ⟨i, hr⟩
      · cases hr
      · cases hr
  obtain ⟨-, htab, -⟩ := hq.toTables.congr hpage (fun _ _ => Iff.rfl) hq.self
  obtain ⟨hdir, hpte⟩ := hq.congr hpage (fun _ _ => Iff.rfl) (fun _ _ => Iff.rfl) hq.self
  exact ⟨hdir, htab, hpte⟩

variable [Layout] {l : List Nat}

theorem Wrote.heap (h : Wrote own d s s') (hH : Heap s own l) : Heap s' own l := by
  refine hH.congr h.freelist (fun g hg => ?_) (fun _ => Iff.rfl) fun _ => id
  have hfree := (hH.free g).2 hg
  rcases h.page g with h1 | h1 | ⟨v, h1⟩
  · exact h1
  · rw [hfree] at h1
    cases h1
  · rw [hfree] at h1
    cases h1

theorem Wrote.within (h : Wrote own d s s') (hH : Heap s own l) (hD : Dir s own d) :
    Within d s own s' own l := by
  refine ⟨h.heap hH, (h.dir hD).1, fun _ _ _ => rfl, fun f _ ho hb => ?_, fun f hf => absurd rfl hf⟩
  rcases h.page f with h1 | h1 | h1
  · exact h1
  · exact absurd h1 ho
  · exact absurd (.inr (.inr h1)) hb

end

/-! ## The invariant -/

/-- The directory `d` has the kernel part and some user pages below `sz`; an entry that is not present
is zero. -/
structure Image [Layout] (s : Mem) (own : Nat → Role) (l : List Nat) (d sz : Nat) : Prop where
  heap : Heap s own l
  dir : Dir s own d
  kern : ∀ u, 2 ^ 19 ≤ u → u < 2 ^ 20 → s.pte d u = kpte u
  zero : ∀ u < 2 ^ 19, ¬ Present (s.pte d u) → s.pte d u = 0
  above : ∀ u < 2 ^ 19, sz ≤ 4096 * u → ¬ Present (s.pte d u)

section
variable [Layout] {s s₁ s' : Mem} {own own₁ own' : Nat → Role} {l l₁ l' : List Nat}
  {d v f c sz newsz : Nat}

theorem Begun.image (h : Begun d c s own l s' own' l') (hk : ∀ u < 2 ^ 20, s'.pte d u = kpte u) :
    Image s' own' l' d 0 := by
  have hlow : ∀ u < 2 ^ 19, s'.pte d u = 0 := fun u hu => Mem.pte_of_none (h.low _ (by omega))
  refine ⟨h.heap, h.dir, fun u _ hu => hk u hu, fun u hu _ => hlow u hu, fun u hu _ => ?_⟩
  rw [hlow u hu]
  exact not_present_zero

/-- The other fields are about the entries of `d` only. -/
theorem Image.of_pte (h : Image s own l d sz) (hH : Heap s' own' l') (hD : Dir s' own' d)
    (hpte : ∀ u < 2 ^ 20, s'.pte d u = s.pte d u) : Image s' own' l' d sz := by
  refine ⟨hH, hD, fun u h1 h2 => ?_, fun u hu hn => ?_, fun u hu hge => ?_⟩
  · rw [hpte u h2]
    exact h.kern u h1 h2
  · rw [hpte u (by omega)] at hn ⊢
    exact h.zero u hu hn
  · rw [hpte u (by omega)]
    exact h.above u hu hge

/-- A store into a page that has nothing to do with `d`. -/
theorem Image.setPage_other (h : Image s own l d sz) (hfree : own f ≠ .free) (hb : ¬ Belongs own d f)
    (p : Bytes) : Image (s.setPage f p) own l d sz ∧
      ∀ u < 2 ^ 20, (s.setPage f p).pte d u = s.pte d u := by
  have hheap : Heap (s.setPage f p) own l := by
    refine h.heap.congr rfl (fun g hg => s.setPage_of_ne f p ?_) (fun _ => Iff.rfl) fun _ => id
    rintro rfl
    exact hfree ((h.heap.free g).2 hg)
  have hpage : ∀ g, g = d ∨ (∃ i, own g = .table d i) → (s.setPage f p).page g = s.page g := by
    intro g hg
    apply s.setPage_of_ne f p
    rintro rfl
    exact hb (hg.imp_right .inl)
  obtain ⟨hdir, hpte⟩ := h.dir.congr hpage (fun _ _ => Iff.rfl) (fun _ _ => Iff.rfl) h.dir.self
  exact ⟨h.of_pte hheap hdir hpte, hpte⟩

theorem Image.wrote (h : Image s own l d sz) (hw : Wrote own d s s') : Image s' own l d sz := by
  obtain ⟨hdir, -, hpte⟩ := hw.dir h.dir
  exact h.of_pte (hw.heap h.heap) hdir hpte

theorem Heap.outside_zero (h : Heap s own l) : own 0 = .outside := by
  by_contra hne
  apply h.valid 0 hne
  have h1 := Layout.text_pos
  have h2 := Layout.data_le
  left
  dsimp only [PGSIZE, EXTMEM] at h1 ⊢
  omega

/-- The page that a user entry gives the address of, whether the entry is present or not. -/
theorem Image.target (h : Image s own l d sz) {u : Nat} (hu : u < 2 ^ 19) :
    pteAddr (s.pte d u) = 0 ∨ ∃ v, own (pteAddr (s.pte d u)) = .user d v := by
  by_cases hp : Present (s.pte d u)
  · exact .inr ⟨u, (h.dir.user _ u).2 ⟨hu, hp, rfl⟩⟩
  · left
    rw [h.zero u hu hp]
    rfl

/-- An entry that is open to the user belongs to a user page. -/
theorem Image.user_lt (h : Image s own l d sz) {u : Nat} (hu : u < 2 ^ 20)
    (hp : Present (s.pte d u)) (hU : s.pte d u &&& PTE_U ≠ 0) : u < 2 ^ 19 ∧ 4096 * u < sz := by
  have hlt : u < 2 ^ 19 := by
    by_contra hge
    rw [h.kern u (by omega) hu] at hU
    rcases kpte_cases u with ⟨h0, -⟩ | ⟨k, -, -, hk, hperm, hzero⟩
    · rw [h0] at hU
      exact hU rfl
    · apply hU
      have hflags : pteFlags (kpte u) = k.perm ||| 1 := by
        rw [hk]
        exact pteFlags_mkpte hperm
      have hmask : kpte u &&& PTE_U = pteFlags (kpte u) &&& PTE_U := by
        unfold pteFlags
        rw [Nat.and_assoc]
        rfl
      rw [hmask, hflags, Nat.and_or_distrib_right, hzero]
      rfl
  refine ⟨hlt, ?_⟩
  by_contra hge
  exact h.above u hlt (by omega) hp

/-! ## Giving up and taking over -/

/-- What was in use is as it was; some pages that were free may be lost. -/
structure Kept [Layout] (s : Mem) (own : Nat → Role) (s' : Mem) (own' : Nat → Role)
    (l' : List Nat) : Prop where
  heap : Heap s' own' l'
  role : ∀ f, own f ≠ .free → own' f = own f
  page : ∀ f, own f ≠ .free → own f ≠ .outside → s'.page f = s.page f
  fresh : ∀ f, own f = .free → own' f = .free ∨ own' f = .held

theorem Kept.pass (hH : Heap s own l) : Kept s own s.pass own l :=
  ⟨hH.pass, fun _ _ => rfl, fun _ _ _ => rfl, fun _ hf => .inl hf⟩

/-- The pages of a directory that nobody has a pointer to. -/
theorem Begun.lost (h : Begun d c s own l s' own' l') : ∃ own₂, Kept s own s'.pass own₂ l' := by
  have hrole : ∀ f, own f ≠ .free → own' f = own f := h.role
  refine ⟨fun f => if own f = .free ∧ own' f ≠ .free then .held else own' f, ?_, fun f hf => ?_,
    fun f hf _ => h.page f hf, fun f hf => ?_⟩
  · refine h.heap.pass.congr rfl (fun _ _ => rfl) (fun g => ?_) fun g hg ho => ?_
    · split
      · next hc => exact ⟨nofun, fun h' => absurd h' hc.2⟩
      · exact Iff.rfl
    · split at hg
      · next hc =>
        rcases h.fresh g hc.1 with h1 | rfl | ⟨i, h1⟩
        · rw [h1] at ho
          cases ho
        · rw [h.dir.self] at ho
          cases ho
        · rw [h1] at ho
          cases ho
      · exact hg ho
  · rw [if_neg fun hc => hf hc.1, hrole f hf]
  · by_cases hc : own' f = .free
    · rw [if_neg fun h => h.2 hc]
      exact .inl hc
    · rw [if_pos ⟨hf, hc⟩]
      exact .inr rfl

/-- A directory that was not there before has no page that was in use. -/
theorem Within.not_belongs (h : Within d s own s' own' l') (hd : own d = .free) (hR : Rooted own)
    (hf : own f ≠ .free) : ¬ Belongs own d f ∧ own' f = own f ∧ ¬ Belongs own' d f := by
  have hnot : ¬ Belongs own d f := hR.not_belongs hd hf rfl
  have hrole := h.role f hf hnot
  exact ⟨hnot, hrole, hR.not_belongs hd hf hrole⟩

/-- A new directory is given up again. -/
theorem Within.given_up (h : Within d s own s₁ own₁ l₁) (hd : own d = .free) (hR : Rooted own) :
    ∃ s' own' l', freevm d s₁ = .ok ((), s') ∧ Kept s own s' own' l' := by
  obtain ⟨s', own', l', hrun, hH, -, hfree, hrest⟩ := freevm_spec h.heap h.dir
  refine ⟨s', own', l', hrun, hH, fun f hf => ?_, fun f hf ho => ?_, fun f hf => ?_⟩
  · obtain ⟨-, hrole, hnot⟩ := h.not_belongs hd hR hf
    rw [(hrest f hnot).1, hrole]
  · obtain ⟨hb, -, hnot⟩ := h.not_belongs hd hR hf
    rw [(hrest f hnot).2, h.page f hf ho hb]
  · by_cases hb : Belongs own₁ d f
    · exact .inl (hfree f hb)
    · rw [(hrest f hb).1]
      by_cases he : own₁ f = own f
      · exact .inl (he.trans hf)
      · rcases h.back f he with h1 | h1 | h1
        · exact .inl h1
        · exact .inr h1
        · exact absurd h1 hb

/-- The directory `d` has taken the place of `old`. -/
structure Replaced [Layout] (old d : Nat) (s : Mem) (own : Nat → Role) (s' : Mem)
    (own' : Nat → Role) (l' : List Nat) : Prop where
  heap : Heap s' own' l'
  dir : Dir s' own' d
  was : own d = .free
  gone : ∀ f, Belongs own old f → own' f = .free
  role : ∀ f, own f ≠ .free → ¬ Belongs own old f → own' f = own f
  page : ∀ f, own f ≠ .free → own f ≠ .outside → ¬ Belongs own old f → s'.page f = s.page f
  fresh : ∀ f, own f = .free → own' f = .free ∨ own' f = .held ∨ Belongs own' d f

/-- `freevm` of one directory leaves another one alone. -/
theorem freevm_other {p : Nat} (hH : Heap s own l) (hD : Dir s own d) (hP : Dir s own p)
    (hne : p ≠ d) : ∃ s' own' l', freevm d s = .ok ((), s') ∧ Heap s' own' l' ∧ Dir s' own' p ∧
      (∀ u < 2 ^ 20, s'.pte p u = s.pte p u) ∧ (∀ f, Belongs own d f → own' f = .free) ∧
      ∀ f, ¬ Belongs own d f → own' f = own f ∧ s'.page f = s.page f := by
  obtain ⟨s', own', l', hrun, hH', -, hfree, hrest⟩ := freevm_spec hH hD
  have hkeep : ∀ f, Belongs own p f → own' f = own f ∧ s'.page f = s.page f := fun f hf =>
    hrest f (hf.unique hP.self (.inr hD.self) hne)
  have hself : own' p = .dir := by rw [(hkeep p (.inl rfl)).1, hP.self]
  obtain ⟨hdir, -, hpte⟩ := hP.keep hkeep fun f => by
    -- the pages that have changed their role are free now
    by_cases hb : Belongs own d f
    · exact .inr fun hp => (hp.used hself).1 (hfree f hb)
    · exact .inl (hrest f hb).1
  exact ⟨s', own', l', hrun, hH', hdir, hpte, hfree, hrest⟩

/-- The old directory is freed, and the new one is as it was. -/
theorem Within.replaced {old : Nat} (h : Within d s own s₁ own₁ l₁) (hd : own d = .free)
    (hR : Rooted own) (hold : Dir s own old) (hI : Image s₁ own₁ l₁ d sz) :
    ∃ s' own' l', freevm old s₁ = .ok ((), s') ∧ Replaced old d s own s' own' l' ∧
      Image s' own' l' d sz ∧ (∀ u < 2 ^ 20, s'.pte d u = s₁.pte d u) ∧
      ∀ a < KERNBASE, s'.load d a = s₁.load d a := by
  have hne : old ≠ d := by
    rintro rfl
    exact nomatch hold.self.symm.trans hd
  obtain ⟨hold₁, -, -, hkeep⟩ := h.other (.inl hd) hold hne
  obtain ⟨s', own', l', hrun, hH, hdir, hpte, hfree, hrest⟩ := freevm_other hI.heap hold₁ hI.dir
    hne.symm
  have hbel : ∀ f, own f ≠ .free → (Belongs own₁ old f ↔ Belongs own old f) := fun f hf =>
    Belongs.of_role (h.not_belongs hd hR hf).2.1
  refine ⟨s', own', l', hrun, ⟨hH, hdir, hd, fun f hf => ?_, fun f hf hno => ?_,
    fun f hf ho hno => ?_, fun f hf => ?_⟩, hI.of_pte hH hdir hpte, hpte, fun a ha => ?_⟩
  · exact hfree f ((hbel f (hf.used hold.self).1).2 hf)
  · rw [(hrest f (mt (hbel f hf).1 hno)).1, (h.not_belongs hd hR hf).2.1]
  · rw [(hrest f (mt (hbel f hf).1 hno)).2, h.page f hf ho (h.not_belongs hd hR hf).1]
  · by_cases hb : Belongs own₁ old f
    · exact .inl (hfree f hb)
    · have hsame := (hrest f hb).1
      rw [Belongs.of_role hsame, hsame]
      by_cases he : own₁ f = own f
      · exact .inl (he.trans hf)
      · exact h.back f he
  · have hagree : Agree own₁ d s' s₁ := fun f hf =>
      (hrest f (hf.unique hI.dir.self (.inr hold₁.self) hne.symm)).2
    exact hagree.load hI.dir ha

/-! ## allocuvm -/

/-- Whatever `kalloc` does: the directory is grown, with holes where there was no page for a table, or
the result is 0. -/
theorem allocuvm_image (newsz : Nat) (h : Image s own l d sz) (hsz : sz ≤ KERNBASE) :
    ∃ r s' own' l', allocuvm d sz newsz s = .ok (r, s') ∧ Local d s own s' own' l' ∧
      (r ≠ 0 → newsz < KERNBASE ∧ r = max sz newsz ∧ Image s' own' l' d r ∧
        (∀ u < 2 ^ 20, 4096 * u < sz → s'.pte d u = s.pte d u) ∧
        ∀ u < 2 ^ 20, s'.pte d u = s.pte d u ∨ ∃ f, s'.pte d u = mkpte f PTE_WU) := by
  by_cases hbig : newsz ≥ KERNBASE
  · refine ⟨0, s, own, l, ?_, .refl h.heap h.dir, fun h0 => absurd rfl h0⟩
    show (if newsz ≥ KERNBASE then _ else _ : VM Nat) s = _
    rw [if_pos hbig]
    rfl
  · by_cases hless : newsz < sz
    · refine ⟨sz, s, own, l, ?_, .refl h.heap h.dir, fun _ => ⟨by omega, by omega, h, fun _ _ _ => rfl,
        fun _ _ => .inl rfl⟩⟩
      show (if newsz ≥ KERNBASE then _ else _ : VM Nat) s = _
      rw [if_neg hbig]
      show (if newsz < sz then _ else _ : VM Nat) s = _
      rw [if_pos hless]
      rfl
    · have hup := pgroundup_eq sz (by omega)
      have hlt : newsz < 2 ^ 31 := by
        dsimp only [KERNBASE] at hbig
        omega
      have hnp : ∀ u, (sz + 4095) / 4096 ≤ u → 4096 * u < newsz → ¬ Present (s.pte d u) :=
        fun u h1 h2 => h.above u (by omega) (by omega)
      obtain ⟨r, s', own', l', hrun, hloc, hr⟩ := allocuvmLoop_local sz (by omega) 1048575
        (v := (sz + 4095) / 4096) (by omega) (by omega) h.heap h.dir hnp
      refine ⟨r, s', own', l', ?_, hloc, fun h0 => ?_⟩
      · rw [allocuvm_eq (by omega) (by omega), hup]
        exact hrun
      · obtain ⟨rfl, hsame, hnew⟩ := hr.resolve_right fun hc => h0 hc.1
        refine ⟨by omega, by omega, ⟨hloc.heap, hloc.dir, fun u h1 h2 => ?_, fun u hu hn => ?_,
          fun u hu hge => ?_⟩, fun u hu hlt => hsame u hu (by omega), hnew⟩
        · rw [hsame u h2 (by omega)]
          exact h.kern u h1 h2
        · rcases hnew u (by omega) with he | ⟨f, he⟩
          · rw [he] at hn ⊢
            exact h.zero u hu hn
          · rw [he] at hn
            exact absurd (present_mkpte (by decide)) hn
        · rw [hsame u (by omega) (by omega)]
          exact h.above u hu (by omega)

omit [Layout] in
theorem mkpte_user (f : Nat) : mkpte f PTE_WU &&& PTE_U ≠ 0 := by
  unfold mkpte
  rw [Nat.and_or_distrib_right, Nat.and_or_distrib_right]
  intro h
  have hperm := (Nat.or_eq_zero_iff.1 (Nat.or_eq_zero_iff.1 h).1).2
  exact absurd hperm (by decide)

/-- A space without holes grows without holes. -/
theorem Grown.image (hg : Grown d (pgroundup sz / 4096) ((pgroundup newsz - pgroundup sz) / 4096)
      (fun _ => PTE_WU) (fun _ _ => 0) c s own l s' own' l') (h : Image s own l d sz)
    (hspace : s.Exact d sz) (hle : sz ≤ newsz) (hsz : newsz < KERNBASE) :
    Image s' own' l' d newsz ∧ s'.Exact d newsz := by
  have hup := pgroundup_eq sz (by omega)
  have hup' := pgroundup_eq newsz (by omega)
  dsimp only [KERNBASE] at hsz
  have hnew : ∀ u, pgroundup sz ≤ 4096 * u → 4096 * u < pgroundup newsz → Present (s'.pte d u) := by
    intro u h1 h2
    obtain ⟨f, -, -, hpte, -⟩ := hg.new u (by omega) (by omega)
    rw [hpte]
    exact present_mkpte (by decide)
  refine ⟨⟨hg.heap, hg.dir, fun u h1 h2 => ?_, fun u hu hn => ?_, fun u hu hge => ?_⟩, fun u hu => ?_⟩
  · rw [hg.pte u h2 (by omega)]
    exact h.kern u h1 h2
  · have hout : ¬ (pgroundup sz ≤ 4096 * u ∧ 4096 * u < pgroundup newsz) := fun hc =>
      hn (hnew u hc.1 hc.2)
    rw [hg.pte u (by omega) (by omega)] at hn ⊢
    exact h.zero u hu hn
  · rw [hg.pte u (by omega) (by omega)]
    exact h.above u hu (by omega)
  · by_cases hlow : pgroundup sz ≤ 4096 * u
    · refine ⟨fun hp => ?_, hnew u hlow⟩
      by_contra hge
      rw [hg.pte u (by omega) (by omega), hspace u hu] at hp
      omega
    · rw [hg.pte u (by omega) (by omega), hspace u hu]
      omega

/-! ## clearpteu -/

omit [Layout] in
/-- Taking the flag away changes neither the page nor its presence. -/
theorem clear_user (w : Nat) (hw : w < 2 ^ 32) :
    (Present (w &&& (0xFFFFFFFF - PTE_U)) ↔ Present w) ∧
    pteAddr (w &&& (0xFFFFFFFF - PTE_U)) = pteAddr w ∧
    (w &&& (0xFFFFFFFF - PTE_U)) &&& PTE_U = 0 := by
  refine ⟨?_, ?_, ?_⟩
  · unfold Present
    rw [Nat.and_assoc]
    rfl
  · unfold pteAddr
    show (w &&& (0xFFFFFFFF - PTE_U)) / 2 ^ 12 = w / 2 ^ 12
    rw [Nat.and_div_two_pow, show (0xFFFFFFFF - PTE_U) / 2 ^ 12 = 2 ^ 20 - 1 by decide,
      Nat.and_two_pow_sub_one_eq_mod]
    omega
  · rw [Nat.and_assoc, show (0xFFFFFFFF - PTE_U) &&& PTE_U = 0 by decide, Nat.and_zero]

/-- The guard page, or a panic if there is no table for it. -/
theorem clearpteu_cases (h : Image s own l d sz) (hv : v < 2 ^ 19) :
    (s.table d (v / 1024) = none ∧ clearpteu d (4096 * v) s = .error .clearpteu) ∨
    ∃ s', clearpteu d (4096 * v) s = .ok ((), s') ∧ Image s' own l d sz ∧ Local d s own s' own l ∧
      s'.pte d v &&& PTE_U = 0 ∧ ∀ u < 2 ^ 20, u ≠ v → s'.pte d u = s.pte d u := by
  have hw := walkpgdir_false s d (4096 * v)
  rw [pdx_page (by omega), ptx_page] at hw
  cases ht : s.table d (v / 1024) with
  | none =>
    rw [ht] at hw
    exact .inl ⟨rfl, seq_ok hw⟩
  | some t =>
    rw [ht] at hw
    right
    have hentry : s.entry t (v % 1024) = s.pte d v := (Mem.pte_of_table ht).symm
    obtain ⟨hpres, haddr, hclear⟩ := clear_user (s.pte d v) (s.pte_lt d v)
    have hlt : s.pte d v &&& (0xFFFFFFFF - PTE_U) < 2 ^ 32 :=
      Nat.lt_of_le_of_lt Nat.and_le_left (s.pte_lt d v)
    obtain ⟨-, -, hpte⟩ := h.dir.toTables.setEntry (by omega) ht hlt
    have huser : ∀ f u, own f = .user d u ↔ (u ≠ v ∧ own f = .user d u) ∨
        (u = v ∧ Present (s.pte d v &&& (0xFFFFFFFF - PTE_U)) ∧
          pteAddr (s.pte d v &&& (0xFFFFFFFF - PTE_U)) = f) := by
      intro f u
      rw [hpres, haddr]
      by_cases hu : u = v
      · subst hu
        rw [h.dir.user]
        simp only [ne_eq, not_true_eq_false, false_and, false_or, true_and, hv]
      · simp only [ne_eq, hu, not_false_eq_true, true_and, false_and, or_false]
    have hD := h.dir.setEntry hv ht hlt (fun _ _ => Iff.rfl) h.dir.self huser
    have hrole : own t = .table d (v / 1024) := (h.dir.table t _).2 ⟨by omega, ht⟩
    have hH : Heap (s.setEntry t (v % 1024) (s.pte d v &&& (0xFFFFFFFF - PTE_U))) own l :=
      h.heap.setPage (by rw [hrole]; nofun) _
    refine ⟨s.setEntry t (v % 1024) (s.pte d v &&& (0xFFFFFFFF - PTE_U)), ?_, ⟨hH, hD, ?_, ?_, ?_⟩,
      ⟨hH, hD, fun _ _ _ => rfl, ?_, fun _ hne => absurd rfl hne⟩, ?_, ?_⟩
    · rw [← hentry]
      exact seq_ok hw
    · intro u h1 h2
      rw [hpte u h2, if_neg (by omega)]
      exact h.kern u h1 h2
    · intro u hu hn
      rw [hpte u (by omega)] at hn ⊢
      by_cases he : u = v
      · rw [if_pos he] at hn ⊢
        rw [hpres, ← he] at hn
        rw [← he, h.zero u hu hn]
        rfl
      · rw [if_neg he] at hn ⊢
        exact h.zero u hu hn
    · intro u hu hge
      rw [hpte u (by omega)]
      by_cases he : u = v
      · rw [if_pos he, hpres, ← he]
        exact h.above u hu hge
      · rw [if_neg he]
        exact h.above u hu hge
    · intro g _ hb
      apply s.setPage_of_ne
      rintro rfl
      exact hb (.inr (.inl ⟨_, hrole⟩))
    · rw [hpte v (by omega), if_pos rfl]
      exact hclear
    · intro u hu hne
      rw [hpte u hu, if_neg hne]

end

/-! ## copyout -/

section
variable {s s' : Mem} {own : Nat → Role} {d u f : Nat}

/-- A new page behind the address of a user entry is seen there and nowhere else. -/
theorem load_setPage (hD : Dir s own d) (hu : u < 2 ^ 19) (hp : Present (s.pte d u))
    (hU : s.pte d u &&& PTE_U ≠ 0) (p : Bytes) {a : Nat} (ha : a < KERNBASE) :
    (s.setPage (pteAddr (s.pte d u)) p).load d a =
      if a / 4096 = u then some (p (a % 4096)) else s.load d a := by
  dsimp only [KERNBASE] at ha
  have hrole : own (pteAddr (s.pte d u)) = .user d u := (hD.user _ u).2 ⟨hu, hp, rfl⟩
  obtain ⟨-, -, hpte⟩ := (Wrote.setPage (s := s) (.inr ⟨u, hrole⟩) p).dir hD
  unfold Mem.load
  dsimp only
  rw [hpte (a / 4096) (by omega)]
  by_cases he : a / 4096 = u
  · rw [if_pos he, he, if_pos ⟨hp, hU⟩, Mem.setPage_self]
  · rw [if_neg he]
    split
    · next hc =>
      rw [s.setPage_of_ne]
      intro hf
      have hother := (hD.user _ (a / 4096)).2 ⟨by omega, hc.1, rfl⟩
      rw [hf, hrole] at hother
      cases hother
      exact he rfl
    · rfl

theorem uva2ka_eq {v : Nat} (hv : v < 2 ^ 20) : uva2ka d (4096 * v) s =
    match s.table d (v / 1024) with
    | none => .error .fault
    | some _ => .ok (if Present (s.pte d v) ∧ s.pte d v &&& PTE_U ≠ 0 then
        some (pteAddr (s.pte d v)) else none, s) := by
  have hw := walkpgdir_false s d (4096 * v)
  rw [pdx_page hv, ptx_page] at hw
  unfold uva2ka
  cases ht : s.table d (v / 1024) with
  | none =>
    rw [ht] at hw
    rw [seq_ok hw]
    rfl
  | some t =>
    rw [ht] at hw
    rw [seq_ok hw, Mem.pte_of_table ht]
    show (if s.entry t (v % 1024) &&& PTE_P = 0 then _ else _ : VM (Option Nat)) s = _
    by_cases hp : s.entry t (v % 1024) &&& PTE_P = 0
    · rw [if_pos hp, if_neg fun hc => hc.1 hp]
      rfl
    · rw [if_neg hp]
      show (if s.entry t (v % 1024) &&& PTE_U = 0 then _ else _ : VM (Option Nat)) s = _
      by_cases hU : s.entry t (v % 1024) &&& PTE_U = 0
      · rw [if_pos hU, if_neg fun hc => hc.2 hU]
        rfl
      · rw [if_neg hU, if_pos ⟨hp, hU⟩]
        rfl

/-- One round of the loop, with the page of `va` as a number. -/
theorem copyoutLoop_succ (d n va : Nat) {buf : List UInt8} (hne : buf ≠ []) :
    copyoutLoop d (n + 1) va buf = (do
      match ← uva2ka d (4096 * (va / 4096)) with
      | none => return false
      | some pa0 =>
        modify fun s => s.setPage pa0 ((s.page pa0).memmove (va % 4096)
          (buf.take (4096 - va % 4096)))
        copyoutLoop d n ((4096 * (va / 4096) + PGSIZE) % 2 ^ 32)
          (buf.drop (4096 - va % 4096)) : VM Bool) := by
  have hdown : pgrounddown va = 4096 * (va / 4096) := by
    unfold pgrounddown
    dsimp only [PGSIZE]
    omega
  have hoff : va - 4096 * (va / 4096) = va % 4096 := by omega
  obtain ⟨b, buf, rfl⟩ := List.exists_cons_of_ne_nil hne
  simp only [copyoutLoop, hdown, hoff] <;> rfl

/-- A copy that stays in one page. -/
theorem copyout_one {va : Nat} {buf : List UInt8} (hne : buf ≠ [])
    (hin : va % 4096 + buf.length ≤ 4096) (hv : va / 4096 < 2 ^ 20)
    (hp : Present (s.pte d (va / 4096))) (hU : s.pte d (va / 4096) &&& PTE_U ≠ 0) :
    copyout d va buf s = .ok (true, s.setPage (pteAddr (s.pte d (va / 4096)))
      ((s.page (pteAddr (s.pte d (va / 4096)))).memmove (va % 4096) buf)) := by
  obtain ⟨n, hn⟩ : ∃ n, buf.length = n + 1 :=
    Nat.exists_eq_succ_of_ne_zero (mt length_eq_zero_iff.1 hne)
  obtain ⟨t, ht⟩ := Mem.exists_table hp
  have hka := uva2ka_eq (s := s) (d := d) hv
  rw [ht, if_pos ⟨hp, hU⟩] at hka
  unfold copyout
  rw [hn, copyoutLoop_succ d n va hne, seq_ok hka, take_of_length_le (by omega),
    drop_of_length_le (by omega)]
  cases n with
  | zero => rfl
  | succ n => rfl

variable [Layout] {l : List Nat} {sz : Nat}

/-- The bytes of `buf` are at `va`; the rest of the user's memory is as it was. -/
def Placed (d va : Nat) (buf : List UInt8) (s s' : Mem) : Prop :=
  (buf ≠ [] → va + buf.length ≤ KERNBASE) ∧
  (∀ a, va ≤ a → a < va + buf.length → s.pte d (a / 4096) &&& PTE_U ≠ 0) ∧
  ∀ a < KERNBASE, s'.load d a =
    if va ≤ a ∧ a < va + buf.length then buf[a - va]? else s.load d a

/-- The part of the copy that goes into the first page. -/
theorem copyout_page (h : Image s own l d sz) {va : Nat} (hu : va / 4096 < 2 ^ 19)
    (hp : Present (s.pte d (va / 4096))) (hU : s.pte d (va / 4096) &&& PTE_U ≠ 0)
    (buf : List UInt8) {a : Nat} (ha : a < KERNBASE) :
    (s.setPage (pteAddr (s.pte d (va / 4096)))
      ((s.page (pteAddr (s.pte d (va / 4096)))).memmove (va % 4096)
        (buf.take (4096 - va % 4096)))).load d a =
      if va ≤ a ∧ a < va + (buf.take (4096 - va % 4096)).length then buf[a - va]?
      else s.load d a := by
  rw [load_setPage h.dir hu hp hU _ ha, length_take]
  by_cases he : a / 4096 = va / 4096
  · rw [if_pos he]
    unfold Bytes.memmove
    rw [length_take]
    by_cases hin : va ≤ a ∧ a < va + min (4096 - va % 4096) buf.length
    · rw [if_pos (by omega), if_pos hin, getD_eq_getElem?_getD,
        getElem?_take_of_lt (by omega), show a % 4096 - va % 4096 = a - va by omega,
        getElem?_eq_getElem (by omega)]
      rfl
    · rw [if_neg (by omega), if_neg hin]
      unfold Mem.load
      dsimp only
      rw [he, if_pos ⟨hp, hU⟩]
  · rw [if_neg he, if_neg (by omega)]

theorem copyoutLoop_spec (n : Nat) : ∀ {s : Mem} {va : Nat} {buf : List UInt8},
    Image s own l d sz → va < 2 ^ 32 →
    Run (fun _ => True) (fun b s' => Wrote own d s s' ∧ (b = true → Placed d va buf s s'))
      (copyoutLoop d n va buf) s := by
  have hnil : ∀ {n va : Nat} {s : Mem}, Run (fun _ => True)
      (fun b s' => Wrote own d s s' ∧ (b = true → Placed d va [] s s'))
      (copyoutLoop d n va []) s := by
    intro n va s
    have hrun : copyoutLoop d n va [] s = .ok (true, s) := by cases n <;> rfl
    refine Run.of_eq hrun ⟨.refl own d s, fun _ =>
      ⟨fun hc => absurd rfl hc, fun a h1 h2 => ?_, fun a _ => ?_⟩⟩
    · rw [length_nil] at h2
      omega
    · rw [if_neg]
      rw [length_nil]
      omega
  induction n with
  | zero =>
    intro s va buf h hva
    cases buf with
    | nil => exact hnil
    | cons b bs => exact Run.throw trivial
  | succ n ih =>
    intro s va buf h hva
    cases hbuf : buf with
    | nil => exact hnil
    | cons b bs =>
      rw [← hbuf]
      have hpos : 0 < buf.length := by
        rw [hbuf]
        exact Nat.succ_pos _
      rw [copyoutLoop_succ d n va (by rw [hbuf]; nofun)]
      have hu20 : va / 4096 < 2 ^ 20 := by omega
      have hka := uva2ka_eq (s := s) (d := d) hu20
      cases ht : s.table d (va / 4096 / 1024) with
      | none =>
        rw [ht] at hka
        unfold Run
        rw [seq_error hka]
        exact trivial
      | some t =>
        rw [ht] at hka
        refine Run.bind_eq hka ?_
        split
        · next hno => exact Run.pure ⟨.refl own d s, nofun⟩
        · next pa0 hsome =>
          split at hsome
          · next hopen =>
            cases hsome
            obtain ⟨hp, hU⟩ := hopen
            obtain ⟨hu, -⟩ := h.user_lt hu20 hp hU
            have hrole : own (pteAddr (s.pte d (va / 4096))) = .user d (va / 4096) :=
              (h.dir.user _ _).2 ⟨hu, hp, rfl⟩
            have hnext : (4096 * (va / 4096) + PGSIZE) % 2 ^ 32 = 4096 * (va / 4096 + 1) := by
              dsimp only [PGSIZE]
              omega
            refine Run.modify_bind ?_
            rw [hnext]
            have hw := Wrote.setPage (s := s) (d := d) (.inr ⟨_, hrole⟩)
              ((s.page (pteAddr (s.pte d (va / 4096)))).memmove (va % 4096)
                (buf.take (4096 - va % 4096)))
            obtain ⟨-, -, hpte⟩ := hw.dir h.dir
            refine (ih (h.wrote hw) (by omega)).mono fun b s' ⟨hw', hok⟩ =>
              ⟨hw.trans hw', fun hb => ?_⟩
            obtain ⟨hend, hopen, hload⟩ := hok hb
            have htake : (buf.take (4096 - va % 4096)).length = min (4096 - va % 4096) buf.length :=
              length_take
            have hdrop : (buf.drop (4096 - va % 4096)).length = buf.length - (4096 - va % 4096) :=
              length_drop
            rw [hdrop] at hopen hload
            have hend' : va + buf.length ≤ KERNBASE := by
              by_cases hmore : buf.drop (4096 - va % 4096) = []
              · rw [hmore, length_nil] at hdrop
                dsimp only [KERNBASE]
                omega
              · have := hend hmore
                rw [hdrop] at this
                have : 0 < (buf.drop (4096 - va % 4096)).length := length_pos_iff.2 hmore
                omega
            refine ⟨fun _ => hend', fun a h1 h2 => ?_, fun a ha => ?_⟩
            · dsimp only [KERNBASE] at hend'
              by_cases he : a / 4096 = va / 4096
              · rw [he]
                exact hU
              · rw [← hpte _ (by omega)]
                exact hopen a (by omega) (by omega)
            · rw [hload a ha]
              by_cases hlate : 4096 * (va / 4096 + 1) ≤ a
              · by_cases hin : a < va + buf.length
                · rw [if_pos (by omega), if_pos (by omega), getElem?_drop,
                    show 4096 - va % 4096 + (a - 4096 * (va / 4096 + 1)) = a - va by omega]
                · rw [if_neg (by omega), if_neg (by omega), copyout_page h hu hp hU buf ha,
                    if_neg (by omega)]
              · rw [if_neg (by omega), copyout_page h hu hp hU buf ha, htake]
                by_cases hin : va ≤ a ∧ a < va + buf.length
                · rw [if_pos (by omega), if_pos hin]
                · rw [if_neg (by omega), if_neg hin]
          · cases hsome

/-- `copyout` fails, or everything is in pages that are open to the user. -/
theorem copyout_spec (h : Image s own l d sz) {va : Nat} (hva : va < 2 ^ 32) (buf : List UInt8) :
    Run (fun _ => True) (fun b s' => Wrote own d s s' ∧ (b = true → Placed d va buf s s'))
      (copyout d va buf) s := copyoutLoop_spec buf.length h hva

end

/-! ## A memory to try -/

/-- The directory of `sparse`, and `n` free pages from 2000 on. -/
def pool : Nat → Mem
  | 0 => sparse
  | n + 1 => (pool n).freed (2000 + n)

def poolList : Nat → List Nat
  | 0 => []
  | n + 1 => (2000 + n) :: poolList n

def poolOwn (n f : Nat) : Role :=
  if 2000 ≤ f ∧ f < 2100 then if f < 2000 + n then .free else .held else sparseOwn f

theorem poolOwn_of_lt (n : Nat) {f : Nat} (hf : f < 2000) : poolOwn n f = sparseOwn f :=
  if_neg (by omega)

theorem poolOwn_succ {n : Nat} (hn : n < 100) :
    poolOwn (n + 1) = Function.update (poolOwn n) (2000 + n) .free := by
  funext f
  by_cases hf : f = 2000 + n
  · rw [hf, Function.update_self]
    unfold poolOwn
    rw [if_pos (by omega), if_pos (by omega)]
  · rw [Function.update_of_ne hf]
    unfold poolOwn
    split
    · by_cases hlt : f < 2000 + n
      · rw [if_pos hlt, if_pos (by omega)]
      · rw [if_neg hlt, if_neg (by omega)]
    · rfl

/-- The pages that are not in the pool have the roles of `sparse`. -/
theorem poolOwn_cases (n f : Nat) : poolOwn n f = .free ∨ poolOwn n f = .held ∨
    poolOwn n f = sparseOwn f ∧ (f < 2000 ∨ 2100 ≤ f) := by
  unfold poolOwn
  split
  · split
    · exact .inl rfl
    · exact .inr (.inl rfl)
  · exact .inr (.inr ⟨rfl, by omega⟩)

theorem sparseOwn_of_ge {f : Nat} (hf : 2000 ≤ f) : sparseOwn f = .outside := by
  unfold sparseOwn
  rw [if_neg (by omega), if_neg (by omega), if_neg (by omega)]

theorem pool_deny (n m : Nat) : (pool n).deny m = false := by
  induction n with
  | zero => rfl
  | succ n ih => exact ih

theorem pool_page (n : Nat) {f : Nat} (hf : f < 2000) : (pool n).page f = sparse.page f := by
  induction n with
  | zero => rfl
  | succ n ih => exact ((pool n).freed_page_of_ne _ (by omega)).trans ih

theorem pool_heap (n : Nat) (hn : n ≤ 100) : @Heap sampleLayout (pool n) (poolOwn n) (poolList n) := by
  let _ : Layout := sampleLayout
  induction n with
  | zero =>
    have hs := sparse_heap
    refine ⟨hs.chain, fun f => ⟨fun h => ?_, nofun⟩, fun f h => ?_⟩
    · unfold poolOwn at h
      split at h
      · rw [if_neg (by omega)] at h
        cases h
      · exact (hs.free f).1 h
    · by_cases hf : 2000 ≤ f ∧ f < 2100
      · show ¬ (PGSIZE * f < 0x110000 ∨ PHYSTOP ≤ PGSIZE * f)
        dsimp only [PGSIZE, PHYSTOP]
        omega
      · apply hs.valid f
        unfold poolOwn at h
        rwa [if_neg hf] at h
  | succ n ih =>
    have hheld : poolOwn n (2000 + n) = .held := by
      unfold poolOwn
      rw [if_pos (by omega), if_neg (by omega)]
    rw [poolOwn_succ (by omega)]
    exact (ih (by omega)).freed (by rw [hheld]; nofun) (by rw [hheld]; nofun)

theorem pool_dir (n : Nat) : Dir (pool n) (poolOwn n) 1024 := by
  have hrole : ∀ f r, r ≠ .free → r ≠ .held → r ≠ .outside → (poolOwn n f = r ↔ sparseOwn f = r) := by
    intro f r h1 h2 h3
    by_cases hf : f < 2000
    · rw [poolOwn_of_lt n hf]
    · constructor
      · intro h
        rcases poolOwn_cases n f with hc | hc | ⟨hc, -⟩
        · exact absurd (h.symm.trans hc) h1
        · exact absurd (h.symm.trans hc) h2
        · exact hc.symm.trans h
      · intro h
        exact absurd (h.symm.trans (sparseOwn_of_ge (by omega))) h3
  refine (sparse_dir.congr (fun f hf => pool_page n ?_) (fun f i => hrole f _ nofun nofun nofun)
    (fun f v => hrole f _ nofun nofun nofun) ((hrole 1024 .dir nofun nofun nofun).2 sparse_dir.self)).1
  rcases hf with rfl | ⟨i, hi⟩
  · decide
  · by_contra hge
    rw [sparseOwn_of_ge (by omega)] at hi
    cases hi

theorem pool_rooted (n : Nat) : Rooted (poolOwn n) := by
  intro d hd f
  have hne : d ≠ 1024 := by
    rintro rfl
    exact hd (pool_dir n).self
  have hnot : ∀ r : Role, r ≠ .free → r ≠ .held → r ≠ .outside → r ≠ .dir → r ≠ .table 1024 1 →
      r ≠ .user 1024 1024 → poolOwn n f ≠ r := by
    intro r h1 h2 h3 h4 h5 h6 h
    rcases poolOwn_cases n f with hc | hc | ⟨hc, -⟩
    · exact h1 (h.symm.trans hc)
    · exact h2 (h.symm.trans hc)
    · rw [hc] at h
      unfold sparseOwn at h
      split at h
      · exact h4 h.symm
      · split at h
        · exact h5 h.symm
        · split at h
          · exact h6 h.symm
          · exact h3 h.symm
  constructor
  · intro i
    refine hnot _ nofun nofun nofun nofun (fun h => ?_) nofun
    cases h
    exact hne rfl
  · intro v
    refine hnot _ nofun nofun nofun nofun nofun fun h => ?_
    cases h
    exact hne rfl

theorem poolList_length (n : Nat) : (poolList n).length = n := by
  induction n with
  | zero => rfl
  | succ n ih => exact congrArg (· + 1) ih

theorem poolList_drop (m n : Nat) : (poolList (m + n)).drop m = poolList n := by
  induction m with
  | zero => rw [Nat.zero_add, drop_zero]
  | succ m ih =>
    rw [show m + 1 + n = m + n + 1 by omega]
    exact ih

/-- The directory that `setupkvm` makes from the last 65 pages of the pool. -/
theorem pool_kvm (n : Nat) (hn : n ≤ 35) : ∃ d s own,
    @setupkvm sampleLayout (pool (65 + n)) = .ok (some d, s) ∧
    @Begun sampleLayout d 64 (pool (65 + n)) (poolOwn (65 + n)) (poolList (65 + n)) s own (poolList n) ∧
    @Image sampleLayout s own (poolList n) d 0 ∧ s.Exact d 0 := by
  let _ : Layout := sampleLayout
  obtain ⟨d, s, own, l, hrun, hb, hk⟩ := setupkvm_enough (pool_heap (65 + n) (by omega))
    (pool_rooted _) (pool_deny _) (by rw [poolList_length]; omega)
  have hl : l = poolList n := by
    rw [hb.took.list]
    exact poolList_drop 65 n
  subst hl
  refine ⟨d, s, own, hrun, hb, hb.image hk, fun u hu => ⟨fun hp => ?_, fun h => ?_⟩⟩
  · exact absurd hp ((hb.image hk).above u hu (Nat.zero_le _))
  · exact absurd h (Nat.not_lt_zero _)

end Xv6.Vm
