import Xv6.Vm.Grow

/-!
# allocuvm

The loop maps one zeroed page after the other.  When it gets no page it gives back what it has mapped
and returns 0.  It does not look at the result of `mappages`: when there is no page for a table it
goes on with the next address, the page it has taken is lost, and it may still return the new size
(`allocuvmLoop_outcome`).
-/

namespace Xv6.Vm

variable {oldsz newsz : Nat}

section
variable [Layout] {s s₁ s' : Mem} {own own₁ own' : Nat → Role} {l l₁ l' : List Nat}
  {d v f m n c : Nat} {perm : Nat → Nat} {val : Nat → Fs.Bytes}

/-! ## The loop -/

/-- The flags of the pages that `allocuvm` maps. -/
abbrev PTE_WU : Nat := PTE_W ||| PTE_U

theorem allocuvmLoop_done {n a : Nat} (h : ¬ a < newsz) :
    allocuvmLoop d oldsz newsz (n + 1) a s = .ok (newsz, s) := by
  rw [allocuvmLoop, if_neg h]
  rfl

/-- One round of the loop: the page is mapped; or there is no page, and the range is given back; or
there is no page for the table, and the loop goes on without the page it has taken. -/
theorem allocuvmLoop_step (oldsz n : Nat) (hH : Heap s own l) (hD : Dir s own d)
    (hlt : 4096 * v < newsz) (hsz : newsz < KERNBASE) (hnp : ¬ Present (s.pte d v)) :
    (s.Dry l ∧ allocuvmLoop d oldsz newsz (n + 1) (4096 * v) s =
      (do discard (deallocuvm d newsz oldsz); return 0 : VM Nat) s.pass) ∨
    (∃ s₁ own₁ l₁, allocuvmLoop d oldsz newsz (n + 1) (4096 * v) s =
        allocuvmLoop d oldsz newsz n (4096 * (v + 1)) s₁ ∧
      Grown d v 1 (fun _ => PTE_WU) (fun _ _ => 0)
        (1 + if s.table d (v / 1024) = none then 1 else 0) s own l s₁ own₁ l₁) ∨
    ∃ f l₁, l = f :: l₁ ∧ s.deny 0 = false ∧ s.table d (v / 1024) = none ∧
      (s.taken f fun _ => 0).Dry l₁ ∧ allocuvmLoop d oldsz newsz (n + 1) (4096 * v) s =
        allocuvmLoop d oldsz newsz n (4096 * (v + 1)) (s.taken f fun _ => 0).pass := by
  dsimp only [KERNBASE] at hsz
  have hnext : (4096 * v + PGSIZE) % 2 ^ 32 = 4096 * (v + 1) := by
    dsimp only [PGSIZE]
    omega
  rw [allocuvmLoop, if_pos hlt, hnext]
  rcases kalloc_cases hH with ⟨hdry, hk⟩ | ⟨f, l₁, rfl, hd, hk, -⟩
  · exact .inl ⟨hdry, seq_ok hk⟩
  · right
    have hstep : ∀ {b s₂}, mappages d (4096 * v) PGSIZE (PGSIZE * f) PTE_WU (s.taken f fun _ => 0) =
        .ok (b, s₂) → (discard (mappages d (4096 * v) PGSIZE (PGSIZE * f) PTE_WU) >>= fun _ =>
          allocuvmLoop d oldsz newsz n (4096 * (v + 1)) : VM Nat) (s.taken f fun _ => 0) =
        allocuvmLoop d oldsz newsz n (4096 * (v + 1)) s₂ := fun hrun => seq_ok (discard_ok hrun)
    rcases grow_page (fun _ => PTE_WU) (fun _ _ => 0) hH hD hd (by omega) hnp
      (by decide) with ⟨s₁, own₁, l₂, hrun, hg⟩ | ⟨hrun, hdry, hnone⟩
    · exact .inl ⟨s₁, own₁, l₂, (seq_ok hk).trans (hstep hrun), hg⟩
    · exact .inr ⟨f, l₁, rfl, hd, hnone, hdry, (seq_ok hk).trans (hstep hrun)⟩

/-- Whatever fails, the loop returns.  Unless it returns 0 it has mapped some pages of its range and
left all others alone. -/
theorem allocuvmLoop_local (oldsz : Nat) (hsz : newsz < KERNBASE) (n : Nat) :
    ∀ {v : Nat} {s : Mem} {own : Nat → Role} {l : List Nat}, newsz ≤ 4096 * (v + n) →
    oldsz ≤ 4096 * v → Heap s own l → Dir s own d →
    (∀ u, v ≤ u → 4096 * u < newsz → ¬ Present (s.pte d u)) → ∃ r s' own' l',
      allocuvmLoop d oldsz newsz (n + 1) (4096 * v) s = .ok (r, s') ∧ Local d s own s' own' l' ∧
      ((r = newsz ∧ (∀ u < 2 ^ 20, u < v ∨ newsz ≤ 4096 * u → s'.pte d u = s.pte d u) ∧
        ∀ u < 2 ^ 20, s'.pte d u = s.pte d u ∨ ∃ f, s'.pte d u = mkpte f PTE_WU) ∨
      (r = 0 ∧ oldsz < newsz)) := by
  induction n with
  | zero =>
    intro v s own l hn hold hH hD _
    exact ⟨newsz, s, own, l, allocuvmLoop_done (by omega), Local.refl hH hD,
      .inl ⟨rfl, fun _ _ _ => rfl, fun _ _ => .inl rfl⟩⟩
  | succ n ih =>
    intro v s own l hn hold hH hD hnp
    by_cases hlt : 4096 * v < newsz
    · have hv20 : v < 2 ^ 20 := by
        dsimp only [KERNBASE] at hsz
        omega
      rcases allocuvmLoop_step oldsz (n + 1) hH hD hlt hsz
        (hnp v (Nat.le_refl _) hlt) with
        ⟨-, hrun⟩ | ⟨s₁, own₁, l₁, hrun, hg⟩ | ⟨f, l₁, rfl, -, -, -, hrun⟩
      · obtain ⟨s', own', l', hde, hF⟩ := deallocuvm_spec newsz oldsz hH.pass
          hD.pass (Nat.le_of_lt hsz) (by omega)
        refine ⟨0, s', own', l', ?_, ?_, .inr ⟨rfl, by omega⟩⟩
        · rw [hrun, seq_ok (discard_ok hde)]
          rfl
        · exact (Local.pass hH hD).trans hF.loc
      · obtain ⟨r, s', own', l', hrest, hloc, hr⟩ := ih (v := v + 1) (by omega) (by omega) hg.heap
          hg.dir fun u h1 h2 => by
            rw [hg.pte u (by dsimp only [KERNBASE] at hsz; omega) (by omega)]
            exact hnp u (by omega) h2
        refine ⟨r, s', own', l', hrun.trans hrest, hg.loc.trans hloc, hr.imp_left ?_⟩
        rintro ⟨rfl, hpte, hnew⟩
        refine ⟨rfl, fun u hu hout => ?_, fun u hu => ?_⟩
        · rw [hpte u hu (by omega), hg.pte u hu (by omega)]
        · by_cases hv : u = v
          · obtain ⟨f, -, -, hf, -⟩ := hg.new u (by omega) (by omega)
            rw [hpte u hu (by omega), hf]
            exact .inr ⟨f, rfl⟩
          · rw [← hg.pte u hu (by omega)]
            exact hnew u hu
      · have hstep := taken_loc hH hD fun _ => 0
        obtain ⟨-, -, -, hpte₁⟩ := taken_spec hH hD fun _ => 0
        obtain ⟨r, s', own', l', hrest, hloc, hr⟩ := ih (v := v + 1) (by omega) (by omega) hstep.heap
          hstep.dir fun u h1 h2 hp => by
            refine hnp u (by omega) h2 ?_
            rw [← hpte₁ u (by dsimp only [KERNBASE] at hsz; omega)]
            exact hp
        refine ⟨r, s', own', l', hrun.trans hrest, hstep.trans hloc, hr.imp_left ?_⟩
        rintro ⟨rfl, hpte, hnew⟩
        refine ⟨rfl, fun u hu hout => ?_, fun u hu => ?_⟩
        · rw [hpte u hu (by omega)]
          exact hpte₁ u hu
        · rw [← hpte₁ u hu]
          exact hnew u hu
    · exact ⟨newsz, s, own, l, allocuvmLoop_done hlt, Local.refl hH hD,
        .inl ⟨rfl, fun _ _ _ => rfl, fun _ _ => .inl rfl⟩⟩

/-! ## Giving back -/

/-- The user pages are mapped as before, and a page that was free is free again or a table. -/
structure Undone [Layout] (d : Nat) (s : Mem) (own : Nat → Role) (s' : Mem) (own' : Nat → Role)
    (l' : List Nat) : Prop where
  heap : Heap s' own' l'
  dir : Dir s' own' d
  pte : ∀ u < 2 ^ 19, Present (s.pte d u) ∨ Present (s'.pte d u) → s'.pte d u = s.pte d u
  role : ∀ f, own f ≠ .free → own' f = own f
  page : ∀ f, own f ≠ .free → f ≠ d → (∀ i, own f ≠ .table d i) → s'.page f = s.page f
  fresh : ∀ f, own f = .free → own' f = .free ∨ ∃ i, own' f = .table d i

/-- Freeing the new pages, and none that were there before, undoes the growth. -/
theorem Grown.undone {P : Nat → Prop} (h : Grown d v m perm val c s own l s₁ own₁ l₁)
    (hD : Dir s own d) (hF : Freed d P s₁.pass own₁ s' own' l')
    (hnp : ∀ u < 2 ^ 19, P u → ¬ Present (s.pte d u)) (hP : ∀ u, v ≤ u → u < v + m → P u) :
    Undone d s own s' own' l' := by
  have hold : ∀ u < 2 ^ 20, ¬ P u → s₁.pte d u = s.pte d u := fun u hu hn =>
    h.pte u hu fun hc => hn (hP u hc.1 hc.2)
  have hnot : ∀ g, own g ≠ .free → ∀ u, own₁ g = .user d u → ¬ P u := by
    intro g hg u hu hPu
    rw [h.role g hg] at hu
    obtain ⟨h1, h2, -⟩ := (hD.user g u).1 hu
    exact hnp u h1 hPu h2
  refine ⟨hF.heap, hF.dir, fun u hu hp => ?_, fun g hg => ?_, fun g hg hgd hgt => ?_, fun g hg => ?_⟩
  · by_cases hPu : P u
    · have h1 := hnp u hu hPu
      have h2 : ¬ Present (s'.pte d u) := by
        by_cases hp₁ : Present (s₁.pte d u)
        · rw [hF.cleared u (by omega) hPu hp₁]
          exact not_present_zero
        · rw [hF.kept u (by omega) fun hc => hp₁ hc.2]
          exact hp₁
      exact absurd hp (not_or.2 ⟨h1, h2⟩)
    · rw [hF.kept u (by omega) fun hc => hPu hc.1]
      exact hold u (by omega) hPu
  · rw [hF.role g (hnot g hg), h.role g hg]
  · have hr := h.role g hg
    rw [hF.page g (hnot g hg) (by rwa [hr])]
    exact h.page g hg hgd hgt
  · rcases h.fresh g hg with h1 | ⟨i, hi⟩ | ⟨u, hu⟩
    · left
      rw [hF.role g (by rw [h1]; nofun), h1]
    · right
      exact ⟨i, by rw [hF.role g (by rw [hi]; nofun), hi]⟩
    · left
      refine hF.free g u hu ?_
      by_contra hPu
      obtain ⟨h1, h2, h3⟩ := (h.dir.user g u).1 hu
      rw [hold u (by omega) hPu] at h2 h3
      have := (hD.user g u).2 ⟨h1, h2, h3⟩
      rw [hg] at this
      cases this

/-- How a growth by `N` pages from `v₀` on ends: all pages are mapped; or a page was missing and
nothing is left of it; or a page for a table was missing. -/
inductive Outcome [Layout] (d newsz v₀ N : Nat) (s : Mem) (own : Nat → Role) (l : List Nat) (r : Nat)
    (s' : Mem) (own' : Nat → Role) (l' : List Nat) : Prop
  | grown (hr : r = newsz) (h : Grown d v₀ N (fun _ => PTE_WU) (fun _ _ => 0)
      (s.plan d v₀ N).length s own l s' own' l')
  | undone (k : Nat) (hk : k < N) (hr : r = 0) (hf : s.FirstFail l (s.plan d v₀ k).length)
      (h : Undone d s own s' own' l')
  | lost (k f : Nat) (hk : k < N) (hf : s.FirstFail l ((s.plan d v₀ k).length + 1))
      (hnone : s.table d ((v₀ + k) / 1024) = none) (hfirst : k = 0 ∨ (v₀ + k) % 1024 = 0)
      (hloc : Local d s own s' own' l') (hfree : own f = .free) (hheld : own' f = .held)
      (hr : r = 0 ∨ (r = newsz ∧ ¬ Present (s'.pte d (v₀ + k))))

/-- The induction is on the pages still to map; what is mapped so far is a `Grown`. -/
theorem allocuvmLoop_outcome {v₀ N : Nat} (hsz : newsz < KERNBASE)
    (hup : pgroundup oldsz = 4096 * v₀) (hold : oldsz ≤ 4096 * v₀)
    (hN : ∀ k, k < N ↔ 4096 * (v₀ + k) < newsz) (hD : Dir s own d)
    (hnp : ∀ u < 2 ^ 19, v₀ ≤ u → ¬ Present (s.pte d u)) (n : Nat) :
    ∀ {m : Nat} {s₁ : Mem} {own₁ : Nat → Role} {l₁ : List Nat}, N ≤ m + n → m ≤ N →
    Grown d v₀ m (fun _ => PTE_WU) (fun _ _ => 0) (s.plan d v₀ m).length s own l s₁ own₁ l₁ →
    ∃ r s' own' l', allocuvmLoop d oldsz newsz (n + 1) (4096 * (v₀ + m)) s₁ = .ok (r, s') ∧
      Outcome d newsz v₀ N s own l r s' own' l' := by
  have hlt19 : ∀ k < N, v₀ + k < 2 ^ 19 := by
    intro k hk
    have := (hN k).1 hk
    dsimp only [KERNBASE] at hsz
    omega
  induction n with
  | zero =>
    intro m s₁ own₁ l₁ hn hm hg
    obtain rfl : m = N := by omega
    exact ⟨newsz, s₁, own₁, l₁, allocuvmLoop_done (mt (hN m).2 (lt_irrefl m)), .grown rfl hg⟩
  | succ n ih =>
    intro m s₁ own₁ l₁ hn hm hg
    by_cases hmN : m < N
    · have hlt := (hN m).1 hmN
      have hv := hlt19 m hmN
      have hnp₁ : ∀ u < 2 ^ 19, v₀ + m ≤ u → ¬ Present (s₁.pte d u) := by
        intro u hu hge
        rw [hg.pte u (by omega) (by omega)]
        exact hnp u hu (by omega)
      have hcalls := hg.calls fun _ => by decide
      rcases allocuvmLoop_step oldsz (n + 1) hg.heap hg.dir hlt hsz
        (hnp₁ _ hv (Nat.le_refl _)) with
        ⟨hdry, hrun⟩ | ⟨s₂, own₂, l₂, hrun, hg'⟩ | ⟨f, l₂, rfl, hd, hnone, hdry, hrun⟩
      · -- no page: everything mapped so far is found again and freed
        obtain ⟨s', own', l', hde, hF⟩ := deallocuvm_spec newsz oldsz
          hg.heap.pass hg.dir.pass (Nat.le_of_lt hsz) (by omega)
        rw [hup, show 4096 * v₀ / 4096 = v₀ by omega] at hF
        refine ⟨0, s', own', l', ?_, .undone m hmN rfl (hg.took.firstFail hdry)
          (hg.undone hD hF ?_ ?_)⟩
        · rw [hrun, seq_ok (discard_ok hde)]
          rfl
        · rintro u hu ⟨h1, -, -⟩
          exact hnp u hu (by omega)
        · intro u h1 h2
          have h3 : 4096 * u < newsz := by omega
          refine ⟨by omega, h3, fun hs => ?_⟩
          obtain ⟨g, -, -, hpte, -⟩ := hg.new v₀ (Nat.le_refl _) (by omega)
          have hpres : Present (s₁.pte d v₀) := by
            rw [hpte]
            exact present_mkpte (by decide)
          obtain ⟨t, ht⟩ := Mem.exists_table hpres
          have hnone : s₁.table d (v₀ / 1024) = none := hs.2.2 (v₀ / 1024) (Nat.le_refl _) hs.1
          rw [ht] at hnone
          cases hnone
      · rw [← hcalls] at hg'
        have hg₂ := hg.trans hg'
        rw [← plan_succ_length] at hg₂
        obtain ⟨r, s', own', l', hrest, hout⟩ := ih (m := m + 1) (by omega) (by omega) hg₂
        exact ⟨r, s', own', l', hrun.trans hrest, hout⟩
      · -- no page for the table: the page `f` is lost
        obtain ⟨hnone₀, hfirst⟩ := (hg.table_none fun _ => by decide).1 hnone
        have hstep := taken_loc hg.heap hg.dir fun _ => 0
        obtain ⟨-, -, -, hpte₁⟩ := taken_spec hg.heap hg.dir fun _ => 0
        have htook : Took 1 s₁ (f :: l₂) (s₁.taken f fun _ => 0) l₂ := (Took.popped hd).of_deny rfl
        have hfree₁ : own₁ f = .free := (hg.heap.free f).2 List.mem_cons_self
        obtain ⟨r, s', own', l', hrest, hloc, hr⟩ := allocuvmLoop_local oldsz hsz n
          (v := v₀ + m + 1) (by
            have := (hN (m + 1 + n)).2
            omega) (by omega) hstep.heap hstep.dir fun u h1 h2 hp => by
              have hu : u < 2 ^ 19 := by
                dsimp only [KERNBASE] at hsz
                omega
              refine hnp₁ u hu (by omega) ?_
              rw [← hpte₁ u (by omega)]
              exact hp
        refine ⟨r, s', own', l', hrun.trans hrest, .lost m f hmN ?_ hnone₀ hfirst
          (hg.loc.trans (hstep.trans hloc)) ?_ (hloc.held hstep.dir.self (Function.update_self ..)) ?_⟩
        · exact (hg.took.trans htook).firstFail hdry
        · by_contra hne
          exact hne ((hg.role f hne).symm.trans hfree₁)
        · rcases hr with ⟨rfl, hpte, -⟩ | ⟨rfl, -⟩
          · refine .inr ⟨rfl, fun hp => hnp₁ _ hv (Nat.le_refl _) ?_⟩
            rw [hpte _ (by omega) (by omega)] at hp
            rw [← hpte₁ _ (by omega)]
            exact hp
          · exact .inl rfl
    · obtain rfl : m = N := by omega
      exact ⟨newsz, s₁, own₁, l₁, allocuvmLoop_done (mt (hN m).2 hmN), .grown rfl hg⟩

/-- The user pages of `d` are those below `sz`. -/
def Mem.Exact (s : Mem) (d sz : Nat) : Prop :=
  ∀ u < 2 ^ 19, Present (s.pte d u) ↔ 4096 * u < pgroundup sz

theorem allocuvm_eq (hle : oldsz ≤ newsz) (hsz : newsz < KERNBASE) :
    allocuvm d oldsz newsz s = allocuvmLoop d oldsz newsz (2 ^ 20) (pgroundup oldsz) s := by
  show (if newsz ≥ KERNBASE then _ else _ : VM Nat) s = _
  rw [if_neg (by omega)]
  show (if newsz < oldsz then _ else _ : VM Nat) s = _
  rw [if_neg (by omega)]

theorem allocuvm_outcome (hH : Heap s own l) (hD : Dir s own d) (hspace : s.Exact d oldsz)
    (hle : oldsz ≤ newsz) (hsz : newsz < KERNBASE) : ∃ r s' own' l',
      allocuvm d oldsz newsz s = .ok (r, s') ∧ Outcome d newsz (pgroundup oldsz / 4096)
        ((pgroundup newsz - pgroundup oldsz) / 4096) s own l r s' own' l' := by
  have hup := pgroundup_eq oldsz (by omega)
  have hup' := pgroundup_eq newsz (by omega)
  have hdiv : pgroundup oldsz / 4096 = (oldsz + 4095) / 4096 := by omega
  have hlen : (pgroundup newsz - pgroundup oldsz) / 4096 =
      (newsz + 4095) / 4096 - (oldsz + 4095) / 4096 := by omega
  have hlt : newsz < 2 ^ 31 := hsz
  obtain ⟨r, s', own', l', hrun, hout⟩ := allocuvmLoop_outcome (l := l)
    (N := (newsz + 4095) / 4096 - (oldsz + 4095) / 4096) hsz hup (by omega) (fun k => by omega) hD
    (fun u hu hge hp => by
      have := (hspace u hu).1 hp
      omega) 1048575 (m := 0) (by omega) (Nat.zero_le _) (.refl hH hD ..)
  refine ⟨r, s', own', l', ?_, ?_⟩
  · rw [allocuvm_eq hle hsz, hup]
    exact hrun
  · rw [hdiv, hlen]
    exact hout

/-- With enough pages the directory grows. -/
theorem allocuvm_enough {oldsz newsz : Nat} (hH : Heap s own l) (hD : Dir s own d)
    (hspace : s.Exact d oldsz) (hle : oldsz ≤ newsz) (hsz : newsz < KERNBASE)
    (hdeny : ∀ n, s.deny n = false) (hmany : (s.plan d (pgroundup oldsz / 4096)
      ((pgroundup newsz - pgroundup oldsz) / 4096)).length ≤ l.length) : ∃ s' own' l',
      allocuvm d oldsz newsz s = .ok (newsz, s') ∧ Grown d (pgroundup oldsz / 4096)
        ((pgroundup newsz - pgroundup oldsz) / 4096) (fun _ => PTE_WU) (fun _ _ => 0)
        (s.plan d (pgroundup oldsz / 4096) ((pgroundup newsz - pgroundup oldsz) / 4096)).length
        s own l s' own' l' := by
  have hno : ∀ n x, (s.plan d (pgroundup oldsz / 4096)
      ((pgroundup newsz - pgroundup oldsz) / 4096))[n]? = some x → ¬ s.FirstFail l n := by
    intro n x hx hf
    obtain ⟨hlt, -⟩ := List.getElem?_eq_some_iff.1 hx
    rcases hf.fails with h | h
    · rw [hdeny n] at h
      cases h
    · omega
  obtain ⟨r, s', own', l', hrun, hout⟩ := allocuvm_outcome hH hD hspace hle hsz
  cases hout with
  | grown hr h =>
    subst hr
    exact ⟨s', own', l', hrun, h⟩
  | undone k hk _ hf _ => exact absurd hf (hno _ _ (plan_data s d _ hk))
  | lost k f hk hf hnone hfirst _ _ _ _ => exact absurd hf (hno _ _ (plan_table s d _ hk hnone hfirst))

/-! ### All or nothing -/

/-- The new size stands for zeroed pages, all of them different and taken from the free list, and 0
for the mappings as they were, with every page back on the list that is not a table. -/
structure AllOrNothing (d oldsz newsz : Nat) (s : Mem) (l : List Nat) (r : Nat) (s' : Mem)
    (l' : List Nat) : Prop where
  mapped : r = newsz → ∀ u, pgroundup oldsz ≤ 4096 * u → 4096 * u < newsz →
    ∃ f ∈ l, s'.pte d u = mkpte f (PTE_W ||| PTE_U) ∧ s'.page f = fun _ => 0
  distinct : r = newsz → ∀ u u', 4096 * u < newsz → 4096 * u' < newsz →
    pteAddr (s'.pte d u) = pteAddr (s'.pte d u') → u = u'
  same : r = 0 → ∀ u < 2 ^ 19, Present (s.pte d u) ∨ Present (s'.pte d u) → s'.pte d u = s.pte d u
  back : r = 0 → ∀ f ∈ l, f ∈ l' ∨ ∃ i < 1024, s'.table d i = some f

theorem Grown.allOrNothing {oldsz newsz : Nat} (hH : Heap s own l) (hspace : s.Exact d oldsz)
    (hle : oldsz ≤ newsz) (hsz : newsz < KERNBASE)
    (h : Grown d (pgroundup oldsz / 4096) ((pgroundup newsz - pgroundup oldsz) / 4096)
      (fun _ => PTE_WU) (fun _ _ => 0) c s own l s' own' l') :
    AllOrNothing d oldsz newsz s l newsz s' l' := by
  have hup := pgroundup_eq oldsz (by omega)
  have hup' := pgroundup_eq newsz (by omega)
  have hlt : newsz < 2 ^ 31 := hsz
  have hpres : ∀ u, 4096 * u < newsz → Present (s'.pte d u) := by
    intro u hu
    by_cases hnew : pgroundup oldsz ≤ 4096 * u
    · obtain ⟨f, -, -, hpte, -⟩ := h.new u (by omega) (by omega)
      rw [hpte]
      exact present_mkpte (by decide)
    · rw [h.pte u (by omega) (by omega)]
      exact (hspace u (by omega)).2 (by omega)
  constructor
  · intro _ u h1 h2
    obtain ⟨f, hfree, -, hpte, hval⟩ := h.new u (by omega) (by omega)
    exact ⟨f, (hH.free f).1 hfree, hpte, hval⟩
  · intro _ u u' h1 h2 he
    have hu := (h.dir.user _ u).2 ⟨by omega, hpres u h1, rfl⟩
    have hu' := (h.dir.user _ u').2 ⟨by omega, hpres u' h2, rfl⟩
    rw [← he, hu] at hu'
    cases hu'
    rfl
  · intro h0 u hu _
    exact h.pte u (by omega) (by omega)
  · intro h0 f hf
    -- nothing was asked for
    by_contra hb
    rcases h.fresh f ((hH.free f).2 hf) with h1 | ⟨i, h1⟩ | ⟨u, h1⟩
    · exact hb (.inl ((h.heap.free f).1 h1))
    · exact hb (.inr ⟨i, (h.dir.table f i).1 h1⟩)
    · obtain ⟨hu, hp, ha⟩ := (h.dir.user f u).1 h1
      rw [h.pte u (by omega) (by omega)] at hp
      have := (hspace u hu).1 hp
      omega

theorem Undone.allOrNothing (hH : Heap s own l) (hle : 0 < newsz) (h : Undone d s own s' own' l') :
    AllOrNothing d oldsz newsz s l 0 s' l' := by
  refine ⟨fun h0 => by omega, fun h0 => by omega, fun _ => h.pte, fun _ f hf => ?_⟩
  rcases h.fresh f ((hH.free f).2 hf) with h1 | ⟨i, h1⟩
  · exact .inl ((h.heap.free f).1 h1)
  · exact .inr ⟨i, (h.dir.table f i).1 h1⟩

/-- `allocuvm` returns the new size or 0, and it is all or nothing if and only if the first call of
`kalloc` that fails is not one for a page table. -/
theorem allocuvm_allOrNothing (s : Mem) (own : Nat → Role) (l : List Nat) (d oldsz newsz : Nat)
    (hH : Heap s own l) (hD : Dir s own d) (hspace : s.Exact d oldsz) (hle : oldsz ≤ newsz)
    (hsz : newsz < KERNBASE) : ∃ r s' l', allocuvm d oldsz newsz s = .ok (r, s') ∧
      (r = newsz ∨ r = 0) ∧ Chain s'.next s'.freelist l' ∧
      (AllOrNothing d oldsz newsz s l r s' l' ↔ ∀ n, s.FirstFail l n →
        (s.plan d (pgroundup oldsz / 4096) ((pgroundup newsz - pgroundup oldsz) / 4096))[n]? ≠
          some .table) := by
  have hup := pgroundup_eq oldsz (by omega)
  have hup' := pgroundup_eq newsz (by omega)
  have hlt : newsz < 2 ^ 31 := hsz
  obtain ⟨r, s', own', l', hrun, hout⟩ := allocuvm_outcome hH hD hspace hle hsz
  cases hout with
  | grown hr h =>
    subst hr
    refine ⟨r, s', l', hrun, .inl rfl, h.heap.chain, fun _ n hn => ?_, fun _ =>
      h.allOrNothing hH hspace hle hsz⟩
    rw [List.getElem?_eq_none (h.took.le_firstFail hn)]
    nofun
  | undone k hk hr hf h =>
    subst hr
    refine ⟨0, s', l', hrun, .inr rfl, h.heap.chain, fun _ n hn => ?_, fun _ =>
      h.allOrNothing hH (by omega)⟩
    rw [hn.unique hf, plan_data s d _ hk]
    nofun
  | lost k f hk hf hnone hfirst hloc hfree hheld hr =>
    refine ⟨r, s', l', hrun, (hr.imp_right fun h => h.1).symm, hloc.heap.chain, fun hall => ?_,
      fun hno => ?_⟩
    · exfalso
      rcases hr with rfl | ⟨rfl, hnp⟩
      · -- the page `f` is neither free nor a table
        rcases hall.back rfl f ((hH.free f).1 hfree) with h1 | ⟨i, hi, h1⟩
        · have := (hloc.heap.free f).2 h1
          rw [hheld] at this
          cases this
        · have := (hloc.dir.table f i).2 ⟨hi, h1⟩
          rw [hheld] at this
          cases this
      · obtain ⟨g, -, hpte, -⟩ := hall.mapped rfl (pgroundup oldsz / 4096 + k) (by omega) (by omega)
        rw [hpte] at hnp
        exact hnp (present_mkpte (by decide))
    · exact absurd (plan_table s d _ hk hnone hfirst) (hno _ hf)

end

theorem stock_exact (n : Nat) : (stock n).Exact 1024 0 := by
  intro u _
  rw [stock_pte]
  exact ⟨fun h => absurd h not_present_zero, fun h => absurd h (Nat.not_lt_zero _)⟩

/-- With two free pages the first page of an empty directory can be mapped. -/
theorem allocuvm_allOrNothing_page : ∃ (_ : Layout) (s : Mem) (own : Nat → Role) (l l' : List Nat)
    (r : Nat) (s' : Mem), Heap s own l ∧ Dir s own 1024 ∧ s.Exact 1024 0 ∧
      allocuvm 1024 0 4096 s = .ok (r, s') ∧ AllOrNothing 1024 0 4096 s l r s' l' := by
  let _ : Layout := sampleLayout
  obtain ⟨l, hl, hH⟩ := stock_heap 2 (by decide)
  have hspace := stock_exact 2
  obtain ⟨r, s', l', hrun, -, -, hiff⟩ := allocuvm_allOrNothing (stock 2) (stockOwn 2) l 1024 0 4096 hH
    (stock_dir 2) hspace (by decide) (by decide)
  refine ⟨sampleLayout, stock 2, stockOwn 2, l, l', r, s', hH, stock_dir 2, hspace, hrun, ?_⟩
  refine hiff.2 fun n hn => ?_
  have h2 : n = 2 := by
    refine hn.unique ⟨by omega, fun m _ => ?_, .inr hl⟩
    rw [stock_deny]
  have hplan : (stock 2).plan 1024 (pgroundup 0 / 4096) ((pgroundup 4096 - pgroundup 0) / 4096) =
      [.data, .table] := by
    show (List.range' 0 1).flatMap ((stock 2).calls 1024 0) = _
    simp [List.range', Mem.calls, stock_table]
  rw [hplan, h2]
  nofun

/-- With one free page `allocuvm` returns the new size although nothing is mapped. -/
theorem allocuvm_lost_page : ∃ (_ : Layout) (s s' : Mem) (own : Nat → Role) (l : List Nat),
    Heap s own l ∧ Dir s own 1024 ∧ s.Exact 1024 0 ∧
      allocuvm 1024 0 4096 s = .ok (4096, s') ∧ ¬ Present (s'.pte 1024 0) := by
  let _ : Layout := sampleLayout
  obtain ⟨l, hl, hH⟩ := stock_heap 1 (by decide)
  have hspace := stock_exact 1
  have hdeny : ∀ n, (stock 1).deny n = false := fun n => by rw [stock_deny]
  have hloop : allocuvm 1024 0 4096 (stock 1) =
      allocuvmLoop 1024 0 4096 (1048575 + 1) (4096 * 0) (stock 1) :=
    allocuvm_eq (Nat.zero_le _) (by decide)
  have hnp : ¬ Present ((stock 1).pte 1024 0) := by
    rw [stock_pte]
    exact not_present_zero
  rcases allocuvmLoop_step 0 1048575 hH (stock_dir 1) (show 4096 * 0 < 4096 by decide)
    (by decide) hnp with
    ⟨hdry, -⟩ | ⟨s₁, own₁, l₁, -, hg⟩ | ⟨f, l₁, rfl, -, -, -, hrun⟩
  · rcases hdry with h | rfl
    · exact absurd ((hdeny 0).symm.trans h) nofun
    · cases hl
  · have := hg.took.le
    rw [stock_table, if_pos rfl, hl] at this
    omega
  · refine ⟨sampleLayout, stock 1, _, stockOwn 1, f :: l₁, hH, stock_dir 1, hspace,
      hloop.trans (hrun.trans (allocuvmLoop_done (by decide))), fun hp => hnp ?_⟩
    obtain ⟨-, -, -, hpte⟩ := taken_spec hH (stock_dir 1) fun _ => 0
    rw [← hpte 0 (by decide)]
    exact hp

end Xv6.Vm
