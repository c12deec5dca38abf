import Xv6.Vm.Allocuvm
import Xv6.Vm.Kernel

/-!
# copyuvm

The child's directory is made by `setupkvm` and then grown by one page for every page of the parent,
with the parent's flags and contents.  Which call of `kalloc` fails first decides how it ends
(`copyuvm_outcome`): when it is the one for a page of the child, `freevm` gives everything back; when
it is one for a table, the directory or the page just taken is lost.

A store through one directory is not seen through another (`stores_isolated`).
-/

namespace Xv6.Vm

open List
open Fs (Bytes)

/-- The flags of the parent's page `u`. -/
def Mem.copyPerm (s : Mem) (p u : Nat) : Nat := pteFlags (s.pte p u)

/-- The contents of the parent's page `u`. -/
def Mem.copyVal (s : Mem) (p u : Nat) : Bytes := s.page (pteAddr (s.pte p u))

theorem copyPerm_lt (s : Mem) (p u : Nat) : s.copyPerm p u < 4096 := by
  unfold Mem.copyPerm
  rw [pteFlags_eq]
  omega

/-- How the loop of `copyuvm` over `N` pages ends. -/
inductive Copied [Layout] (p d N : Nat) (s : Mem) (own : Nat → Role) (l : List Nat) : Bool → Mem →
    (Nat → Role) → List Nat → Prop
  | all {s' : Mem} {own' : Nat → Role} {l' : List Nat}
      (h : Grown d 0 N (s.copyPerm p) (s.copyVal p) (s.plan d 0 N).length s own l s' own' l') :
      Copied p d N s own l true s' own' l'
  | dry (k : Nat) {s' : Mem} {own' : Nat → Role} {l' : List Nat} (hk : k < N)
      (hf : s.FirstFail l (s.plan d 0 k).length)
      (h : Grown d 0 k (s.copyPerm p) (s.copyVal p) (s.plan d 0 k).length s own l s' own' l') :
      Copied p d N s own l false s'.pass own' l'
  | lost (k f : Nat) {s' : Mem} {own' : Nat → Role} {l' : List Nat} (hk : k < N)
      (hf : s.FirstFail l ((s.plan d 0 k).length + 1)) (hnone : s.table d (k / 1024) = none)
      (hfirst : k = 0 ∨ k % 1024 = 0) (hloc : Local d s own s' own' l')
      (hrole : ∀ g, own g ≠ .free → own' g = own g)
      (hfree : own f = .free) (hheld : own' f = .held) :
      Copied p d N s own l false s' own' l'

section
variable [Layout] {s s₁ s' : Mem} {own own₁ own' : Nat → Role} {l l₁ l' : List Nat}
  {p d v m n c sz N : Nat}

omit [Layout] in
theorem copyuvmLoop_done {a : Nat} (h : ¬ a < sz) :
    copyuvmLoop p sz d (n + 1) a s = .ok (true, s) := by
  rw [copyuvmLoop, if_neg h]
  rfl

/-- One round of the loop, for a page that the parent has. -/
theorem copyuvmLoop_step (perm : Nat → Nat) (val : Nat → Bytes) (n : Nat) (hH : Heap s own l)
    (hD : Dir s own d) (hlt : 4096 * v < sz) (hsz : sz ≤ KERNBASE) (hnp : ¬ Present (s.pte d v))
    (hpres : Present (s.pte p v)) (hperm : perm v = pteFlags (s.pte p v))
    (hval : val v = s.page (pteAddr (s.pte p v))) :
    (s.Dry l ∧ copyuvmLoop p sz d (n + 1) (4096 * v) s = .ok (false, s.pass)) ∨
    (∃ s₁ own₁ l₁, copyuvmLoop p sz d (n + 1) (4096 * v) s =
        copyuvmLoop p sz d n (4096 * (v + 1)) s₁ ∧
      Grown d v 1 perm val (1 + if s.table d (v / 1024) = none then 1 else 0) s own l s₁ own₁ l₁) ∨
    ∃ f l₁, l = f :: l₁ ∧ s.deny 0 = false ∧ s.table d (v / 1024) = none ∧
      (s.taken f (val v)).Dry l₁ ∧
      copyuvmLoop p sz d (n + 1) (4096 * v) s = .ok (false, (s.taken f (val v)).pass) := by
  dsimp only [KERNBASE] at hsz
  have hnext : (4096 * v + PGSIZE) % 2 ^ 32 = 4096 * (v + 1) := by
    dsimp only [PGSIZE]
    omega
  obtain ⟨t, ht⟩ := Mem.exists_table hpres
  have hw : walkpgdir p (4096 * v) false s = .ok (some (t, ptx (4096 * v)), s) :=
    walkpgdir_present (by rw [pdx_page (by omega)]; exact ht) false
  have hentry : s.entry t (ptx (4096 * v)) = s.pte p v := by
    rw [ptx_page, Mem.pte_of_table ht]
  have hbody : ∀ r s₁, kalloc s = .ok (r, s₁) → copyuvmLoop p sz d (n + 1) (4096 * v) s =
      (r.elim (return false) fun mem => do
        modify fun s₁ => s₁.setPage mem (s₁.page (pteAddr (s.pte p v)))
        if ← mappages d (4096 * v) PGSIZE (PGSIZE * mem) (pteFlags (s.pte p v)) then
          copyuvmLoop p sz d n (4096 * (v + 1))
        else
          return false : VM Bool) s₁ := by
    intro r s₁ hk
    rw [copyuvmLoop, if_pos hlt, seq_ok hw, hnext, ← hentry]
    show (if s.entry t (ptx (4096 * v)) &&& PTE_P = 0 then _ else _ : VM Bool) s = _
    refine (congrFun (if_neg (by rw [hentry]; exact hpres)) s).trans ((seq_ok hk).trans ?_)
    cases r <;> rfl
  rcases kalloc_cases hH with ⟨hdry, hk⟩ | ⟨f, l₁, rfl, hd, hk, -⟩
  · exact .inl ⟨hdry, hbody _ _ hk⟩
  · right
    have hstep : copyuvmLoop p sz d (n + 1) (4096 * v) s =
        (mappages d (4096 * v) PGSIZE (PGSIZE * f) (perm v) >>= fun b =>
          if b then copyuvmLoop p sz d n (4096 * (v + 1)) else return false : VM Bool)
          (s.taken f (val v)) := by
      rw [hbody _ _ hk, hperm, hval]
      rfl
    rcases grow_page perm val hH hD hd (by omega) hnp (by rw [hperm]; exact copyPerm_lt s p v) with
      ⟨s₁, own₁, l₂, hrun, hg⟩ | ⟨hrun, hdry, hnone⟩
    · exact .inl ⟨s₁, own₁, l₂, hstep.trans (seq_ok hrun), hg⟩
    · exact .inr ⟨f, l₁, rfl, hd, hnone, hdry, hstep.trans (seq_ok hrun)⟩

/-- The parent's pages stay as they are, so every page is copied as it was at the start. -/
theorem copyuvmLoop_outcome (hD : Dir s own d) (hP : Dir s own p) (hne : p ≠ d)
    (hsz : sz ≤ KERNBASE) (hN : ∀ k, k < N ↔ 4096 * k < sz)
    (hpages : ∀ k < N, Present (s.pte p k)) (hnp : ∀ u < 2 ^ 19, ¬ Present (s.pte d u)) (n : Nat) :
    ∀ {m : Nat} {s₁ : Mem} {own₁ : Nat → Role} {l₁ : List Nat}, N ≤ m + n → m ≤ N →
    Grown d 0 m (s.copyPerm p) (s.copyVal p) (s.plan d 0 m).length s own l s₁ own₁ l₁ →
    ∃ b s' own' l', copyuvmLoop p sz d (n + 1) (4096 * m) s₁ = .ok (b, s') ∧
      Copied p d N s own l b s' own' l' := by
  induction n with
  | zero =>
    intro m s₁ own₁ l₁ hn hm hg
    obtain rfl : m = N := by omega
    exact ⟨true, s₁, own₁, l₁, copyuvmLoop_done (mt (hN m).2 (lt_irrefl m)), .all hg⟩
  | succ n ih =>
    intro m s₁ own₁ l₁ hn hm hg
    by_cases hmN : m < N
    · have hlt := (hN m).1 hmN
      have hm19 : m < 2 ^ 19 := by
        dsimp only [KERNBASE] at hsz
        omega
      obtain ⟨-, -, hpte, hpage⟩ := hg.loc.other (.inr hD.self) hP hne
      have huser : own (pteAddr (s.pte p m)) = .user p m :=
        (hP.user _ m).2 ⟨hm19, hpages m hmN, rfl⟩
      have hptem := hpte m (by omega)
      have hcalls := hg.calls (copyPerm_lt s p)
      rw [Nat.zero_add] at hcalls
      rcases copyuvmLoop_step (p := p) (s.copyPerm p) (s.copyVal p) (n + 1) hg.heap hg.dir
        hlt hsz (by
          rw [hg.pte m (by omega) (by omega)]
          exact hnp m hm19) (by rw [hptem]; exact hpages m hmN) (by rw [hptem]; rfl) (by
          rw [hptem, (hpage _ (.inr (.inr ⟨m, huser⟩))).2]
          rfl) with
        ⟨hdry, hrun⟩ | ⟨s₂, own₂, l₂, hrun, hg'⟩ | ⟨f, l₂, rfl, hd, hnone, hdry, hrun⟩
      · exact ⟨false, s₁.pass, own₁, l₁, hrun, .dry m hmN (hg.took.firstFail hdry) hg⟩
      · rw [← hcalls] at hg'
        have hg₂ : Grown d 0 (m + 1) (s.copyPerm p) (s.copyVal p) (s.plan d 0 (m + 1)).length s own l
            s₂ own₂ l₂ := by
          rw [plan_succ_length, Nat.zero_add]
          refine hg.trans ?_
          rwa [Nat.zero_add]
        exact (ih (m := m + 1) (by omega) (by omega) hg₂).imp fun b h => h.imp fun s' h =>
          h.imp fun own' h => h.imp fun l' h => ⟨hrun.trans h.1, h.2⟩
      · have hstep := taken_loc hg.heap hg.dir (s.copyVal p m)
        have htook : Took 1 s₁ (f :: l₂) (s₁.taken f (s.copyVal p m)) l₂ :=
          (Took.popped hd).of_deny rfl
        have hfree₁ : own₁ f = .free := (hg.heap.free f).2 mem_cons_self
        have hfree : own f = .free := by
          by_contra hno
          exact hno ((hg.role f hno).symm.trans hfree₁)
        have htn := hg.table_none (copyPerm_lt s p)
        rw [Nat.zero_add] at htn
        obtain ⟨hnone₀, hfirst⟩ := htn.1 hnone
        refine ⟨false, _, _, l₂, hrun, .lost m f hmN ((hg.took.trans htook).firstFail hdry) hnone₀
          hfirst (hg.loc.trans hstep) (fun g hgf => ?_) hfree (Function.update_self ..)⟩
        have hgf' : g ≠ f := by
          rintro rfl
          exact hgf hfree
        rw [Function.update_of_ne hgf', hg.role g hgf]
    · obtain rfl : m = N := by omega
      exact ⟨true, s₁, own₁, l₁, copyuvmLoop_done (mt (hN m).2 hmN), .all hg⟩

/-! ## The whole of it -/

theorem Begun.loc (h : Begun d c s own l s' own' l') : Local d s own s' own' l' := by
  refine ⟨h.heap, h.dir, fun f hf _ => h.role f hf, fun f hf _ => h.page f hf, fun f hne => ?_⟩
  have hfree : own f = .free := by
    by_contra hf
    exact hne (h.role f hf)
  rcases h.fresh f hfree with h1 | h1 | h1
  · exact .inl h1
  · exact .inr (.inr (.inl h1))
  · exact .inr (.inr (.inr (.inl h1)))

/-- The calls of `kalloc` for the user pages: a table for every 1024 of them. -/
def userPlan (n : Nat) : List Call :=
  (List.range n).flatMap fun v => .data :: if v % 1024 = 0 then [.table] else []

/-- The calls of `kalloc` of a `copyuvm` over `n` pages: the directory, the 64 tables of the kernel
part, and the user pages. -/
def copyPlan (n : Nat) : List Call := .dir :: (List.replicate 64 .table ++ userPlan n)

omit [Layout] in
theorem plan_eq_userPlan (hlow : ∀ i < 512, s.table d i = none) (hn : n ≤ 2 ^ 19) :
    s.plan d 0 n = userPlan n := by
  unfold Mem.plan userPlan
  rw [← range_eq_range']
  refine flatMap_congr fun v hv => ?_
  have hv' := mem_range.1 hv
  unfold Mem.calls
  rw [hlow (v / 1024) (by omega)]
  by_cases h0 : v % 1024 = 0
  · rw [if_pos h0, if_pos ⟨rfl, .inr h0⟩]
  · rw [if_neg h0, if_neg (by omega)]

/-- Pages that were not free are as they were; a page that was free is still free, is held, or belongs
to a directory that is new. -/
structure Builds [Layout] (s : Mem) (own : Nat → Role) (s' : Mem) (own' : Nat → Role)
    (l' : List Nat) : Prop where
  heap : Heap s' own' l'
  role : ∀ f, own f ≠ .free → own' f = own f
  page : ∀ f, own f ≠ .free → s'.page f = s.page f
  fresh : ∀ f, own f = .free → own' f = .free ∨ own' f = .held ∨
    ∃ d, own d = .free ∧ Dir s' own' d ∧ Belongs own' d f

/-- A directory that was there before is as it was, with all its pages. -/
theorem Builds.other (h : Builds s own s' own' l') (hP : Dir s own p) :
    Dir s' own' p ∧ (∀ u < 2 ^ 20, s'.pte p u = s.pte p u) ∧
    ∀ f, Belongs own p f → own' f = own f ∧ s'.page f = s.page f := by
  have hkeep : ∀ f, Belongs own p f → own' f = own f ∧ s'.page f = s.page f := fun f hf =>
    ⟨h.role f (hf.used hP.self).1, h.page f (hf.used hP.self).1⟩
  have hself : own' p = .dir := by rw [(hkeep p (.inl rfl)).1, hP.self]
  -- a page of `p` was not free
  have hback : ∀ f, own' f = own f ∨ ¬ Belongs own' p f := by
    intro f
    by_cases hf : own f = .free
    · refine .inr fun hb => ?_
      rcases h.fresh f hf with h1 | h1 | ⟨d, hd, hD, h1⟩
      · exact (hb.used hself).1 h1
      · exact (hb.used hself).2.2 h1
      · have hne : p ≠ d := by
          rintro rfl
          exact nomatch hP.self.symm.trans hd
        exact hb.unique hself (.inr hD.self) hne h1
    · exact .inl (h.role f hf)
  obtain ⟨hdir, -, hpte⟩ := hP.keep hkeep hback
  exact ⟨hdir, hpte, hkeep⟩

theorem Begun.builds (h : Begun d c s own l s' own' l') : Builds s own s' own' l' := by
  refine ⟨h.heap, h.role, h.page, fun f hf => ?_⟩
  rcases h.fresh f hf with h1 | h1 | h1
  · exact .inl h1
  · exact .inr (.inr ⟨d, h.was, h.dir, .inl h1⟩)
  · exact .inr (.inr ⟨d, h.was, h.dir, .inr (.inl h1)⟩)

omit [Layout] in
/-- A page that has kept its role does not belong to a directory that is new. -/
theorem Rooted.not_belongs (hR : Rooted own) (hd : own d = .free) {f : Nat} (hf : own f ≠ .free)
    (he : own' f = own f) : ¬ Belongs own' d f := by
  have hroot := hR d (by rw [hd]; nofun)
  rintro (rfl | ⟨i, hi⟩ | ⟨u, hu⟩)
  · exact hf hd
  · exact (hroot f).1 i (he.symm.trans hi)
  · exact (hroot f).2 u (he.symm.trans hu)

/-- What is done to a new directory and to free pages. -/
theorem Begun.builds_local (h : Begun d c s own l s₁ own₁ l₁) (hR : Rooted own)
    (h' : Local d s₁ own₁ s' own' l') : Builds s own s' own' l' := by
  have hkeep : ∀ f, own f ≠ .free → own₁ f ≠ .free ∧ ¬ Belongs own₁ d f := by
    intro f hf
    have ho := h.role f hf
    exact ⟨by rwa [ho], hR.not_belongs h.was hf ho⟩
  refine ⟨h'.heap, fun f hf => ?_, fun f hf => ?_, fun f hf => ?_⟩
  · rw [h'.role f (hkeep f hf).1 (hkeep f hf).2, h.role f hf]
  · rw [h'.page f (hkeep f hf).1 (hkeep f hf).2, h.page f hf]
  · have hnew : ∀ f, Belongs own' d f → own' f = .free ∨ own' f = .held ∨
        ∃ d, own d = .free ∧ Dir s' own' d ∧ Belongs own' d f := fun f hb =>
      .inr (.inr ⟨d, h.was, h'.dir, hb⟩)
    by_cases he : own' f = own₁ f
    · rcases h.fresh f hf with h1 | h1 | ⟨i, h1⟩
      · exact .inl (he.trans h1)
      · exact hnew f (.inl h1)
      · exact hnew f (.inr (.inl ⟨i, he.trans h1⟩))
    · rcases h'.back f he with h1 | h1 | h1
      · exact .inl h1
      · exact .inr (.inl h1)
      · exact hnew f h1

/-- A new directory is given up. -/
theorem Begun.given_up {s₂ : Mem} {own₂ : Nat → Role} {l₂ : List Nat}
    (h : Begun d c s own l s₁ own₁ l₁) (hR : Rooted own) (h' : Local d s₁ own₁ s₂ own₂ l₂) :
    ∃ s' own' l', freevm d s₂ = .ok ((), s') ∧ Builds s own s' own' l' ∧
      (∀ f, Belongs own₂ d f → own' f = .free) ∧ ∀ f, ¬ Belongs own₂ d f → own' f = own₂ f := by
  have hb := h.builds_local hR h'
  obtain ⟨s', own', l', hrun, hH, -, hfree, hrest⟩ := freevm_spec h'.heap h'.dir
  have hnot : ∀ f, own f ≠ .free → ¬ Belongs own₂ d f := fun f hf =>
    hR.not_belongs h.was hf (hb.role f hf)
  refine ⟨s', own', l', hrun, ⟨hH, fun f hf => ?_, fun f hf => ?_, fun f hf => ?_⟩, hfree, fun f hf =>
    (hrest f hf).1⟩
  · rw [(hrest f (hnot f hf)).1, hb.role f hf]
  · rw [(hrest f (hnot f hf)).2, hb.page f hf]
  · by_cases hbel : Belongs own₂ d f
    · exact .inl (hfree f hbel)
    · rw [(hrest f hbel).1]
      by_cases he : own₂ f = own₁ f
      · rcases h.fresh f hf with h1 | h1 | ⟨i, h1⟩
        · exact .inl (he.trans h1)
        · exact absurd (.inl h1) hbel
        · exact absurd (.inr (.inl ⟨i, he.trans h1⟩)) hbel
      · rcases h'.back f he with h1 | h1 | h1
        · exact .inl h1
        · exact .inr (.inl h1)
        · exact absurd h1 hbel

/-- Without a lost page everything is as before. -/
theorem Begun.undo {m : Nat} {perm : Nat → Nat} {val : Nat → Bytes}
    (h : Begun d c s own l s₁ own₁ l₁) (hR : Rooted own)
    (hg : Grown d 0 m perm val n s₁ own₁ l₁ s' own' l') : ∃ s₂ l₂,
      freevm d s'.pass = .ok ((), s₂) ∧ Builds s own s₂ own l₂ := by
  have hloc := hg.loc.trans (Local.pass hg.heap hg.dir)
  obtain ⟨s₂, own₂, l₂, hrun, hb, hfree, hrest⟩ := h.given_up hR hloc
  have hown : own₂ = own := by
    funext f
    by_cases hf : own f = .free
    · rw [hf]
      by_cases hbel : Belongs own' d f
      · exact hfree f hbel
      · rw [hrest f hbel]
        rcases h.fresh f hf with h1 | h1 | ⟨i, h1⟩
        · rcases hg.fresh f h1 with h2 | h2
          · exact h2
          · exact absurd (.inr h2) hbel
        · exact absurd (.inl h1) hbel
        · refine absurd (.inr (.inl ⟨i, ?_⟩)) hbel
          rw [hg.role f (by rw [h1]; nofun), h1]
    · exact hb.role f hf
  rw [hown] at hb
  exact ⟨s₂, l₂, hrun, hb⟩

/-- `copyuvm` has made the directory `d` for the pages below `sz` of the parent `p`. -/
structure Child [Layout] (p d sz : Nat) (s : Mem) (own : Nat → Role) (s' : Mem)
    (own' : Nat → Role) : Prop where
  was : own d = .free
  dir : Dir s' own' d
  user : ∀ u, 4096 * u < sz → ∃ f, own f = .free ∧ own' f = .user d u ∧
    s'.pte d u = mkpte f (s.copyPerm p u) ∧ s'.page f = s.copyVal p u
  rest : ∀ u < 2 ^ 20, sz ≤ 4096 * u → s'.pte d u = kpte u

/-- How `copyuvm` over `N` pages ends: with a child; or everything is free again; or a page is lost,
because the call of `kalloc` that failed was one for a table. -/
inductive Ended [Layout] (p sz N : Nat) (s : Mem) (own : Nat → Role) (l : List Nat) (s' : Mem)
    (own' : Nat → Role) (l' : List Nat) : Option Nat → Prop
  | child (d : Nat) (h : Child p d sz s own s' own')
      (ht : Took (copyPlan N).length s l s' l') : Ended p sz N s own l s' own' l' (some d)
  | clean (n : Nat) (hf : s.FirstFail l n)
      (hn : (copyPlan N)[n]? = some .dir ∨ (copyPlan N)[n]? = some .data) (hown : own' = own) :
      Ended p sz N s own l s' own' l' none
  | leak (n f : Nat) (hf : s.FirstFail l n) (hn : (copyPlan N)[n]? = some .table)
      (hfree : own f = .free) (hlost : own' f ≠ .free) : Ended p sz N s own l s' own' l' none

omit [Layout] in
theorem copyPlan_user (N n : Nat) : (copyPlan N)[65 + n]? = (userPlan N)[n]? := by
  unfold copyPlan
  rw [show 65 + n = (64 + n) + 1 by omega, getElem?_cons_succ, getElem?_append_right]
  · rw [length_replicate, Nat.add_sub_cancel_left]
  · rw [length_replicate]
    omega

theorem copyuvm_outcome (hH : Heap s own l) (hR : Rooted own) (hP : Dir s own p)
    (hsz : sz ≤ KERNBASE) (hN : ∀ k, k < N ↔ 4096 * k < sz)
    (hpages : ∀ k < N, Present (s.pte p k)) : ∃ r s' own' l', copyuvm p sz s = .ok (r, s') ∧
      Builds s own s' own' l' ∧ Ended p sz N s own l s' own' l' r := by
  rcases setupkvm_spec hH hR with ⟨hdry, hrun⟩ | ⟨d, c, s', own', l', hc, hrun, hdry, hb⟩ |
    ⟨d, s₀, own₀, l₀, hrun₀, hb, hkern⟩
  · refine ⟨none, s.pass, own, l, seq_ok hrun, ⟨hH.pass, fun _ _ => rfl, fun _ _ => rfl, fun _ hf =>
      .inl hf⟩, .clean 0 ((Took.refl s l).firstFail hdry) (.inl rfl) rfl⟩
  · have hb' := hb.builds
    refine ⟨none, s'.pass, own', l', seq_ok hrun, ⟨hb'.heap.pass, hb'.role, hb'.page, ?_⟩,
      .leak (1 + c) d (hb.took.firstFail hdry) ?_ hb.was (by rw [hb.dir.self]; nofun)⟩
    · exact (hb.builds_local hR (Local.pass hb.heap hb.dir)).fresh
    · unfold copyPlan
      rw [Nat.add_comm, getElem?_cons_succ, getElem?_append_left, getElem?_replicate,
        if_pos hc]
      rwa [length_replicate]
  · have hne : p ≠ d := by
      rintro rfl
      exact nomatch hP.self.symm.trans hb.was
    have hN19 : N ≤ 2 ^ 19 := by
      by_contra hgt
      have := (hN (2 ^ 19)).1 (by omega)
      dsimp only [KERNBASE] at hsz
      omega
    obtain ⟨hP₀, -, hpteP, hpageP⟩ := hb.loc.other (.inl hb.was) hP hne
    have hplan : s₀.plan d 0 N = userPlan N := plan_eq_userPlan hb.low hN19
    have hnp : ∀ u < 2 ^ 19, ¬ Present (s₀.pte d u) := by
      intro u hu
      rw [Mem.pte_of_none (hb.low _ (by omega))]
      exact not_present_zero
    have hwas : ∀ f, own₀ f = .free → own f = .free := by
      intro f hf
      by_contra hno
      exact hno ((hb.role f hno).symm.trans hf)
    obtain ⟨b, s₁, own₁, l₁, hloop, hcopied⟩ := copyuvmLoop_outcome (l := l₀) hb.dir hP₀ hne hsz hN
      (fun k hk => by rw [hpteP k (by omega)]; exact hpages k hk) hnp 1048575 (m := 0) (by omega)
      (Nat.zero_le _) (.refl hb.heap hb.dir ..)
    have hbody : copyuvm p sz s = (if b then return some d else do
        freevm d
        return none : VM (Option Nat)) s₁ := by
      unfold copyuvm
      rw [seq_ok hrun₀]
      exact seq_ok hloop
    cases hcopied with
    | all hg =>
      refine ⟨some d, s₁, own₁, l₁, hbody, hb.builds_local hR hg.loc, .child d ⟨hb.was, hg.dir,
        fun u hu => ?_, fun u hu hge => ?_⟩ ?_⟩
      · have huN := (hN u).2 hu
        obtain ⟨f, hfree, huser, hpte, hval⟩ := hg.new u (Nat.zero_le _) (by omega)
        have hparent : own (pteAddr (s.pte p u)) = .user p u :=
          (hP.user _ u).2 ⟨by omega, hpages u huN, rfl⟩
        have hsame := hpteP u (by omega)
        refine ⟨f, hwas f hfree, huser, ?_, ?_⟩
        · rw [hpte]
          unfold Mem.copyPerm
          rw [hsame]
        · rw [hval]
          unfold Mem.copyVal
          rw [hsame, (hpageP _ (.inr (.inr ⟨u, hparent⟩))).2]
      · have huN := mt (hN u).1 (by omega)
        rw [hg.pte u hu (by omega), hkern u hu]
      · have htook := hb.took.trans hg.took
        have hlen : (copyPlan N).length = 1 + 64 + (s₀.plan d 0 N).length := by
          rw [hplan]
          unfold copyPlan
          rw [length_cons, length_append, length_replicate]
          omega
        rwa [hlen]
    | dry k hk hf hg =>
      obtain ⟨s₂, l₂, hrun, hbuild⟩ := hb.undo hR hg
      refine ⟨none, s₂, own, l₂, ?_, hbuild, .clean (65 + (s₀.plan d 0 k).length)
        (hb.took.firstFail_add hf) (.inr ?_) rfl⟩
      · rw [hbody]
        exact seq_ok hrun
      · rw [copyPlan_user, ← hplan]
        exact plan_data s₀ d 0 hk
    | lost k f hk hf hnone hfirst hloc hrole hfree hheld =>
      obtain ⟨s₂, own₂, l₂, hrun, hbuild, hgone, hrest⟩ := hb.given_up hR hloc
      have hfd : ¬ Belongs own₁ d f := fun h => (h.used hloc.dir.self).2.2 hheld
      refine ⟨none, s₂, own₂, l₂, ?_, hbuild, .leak (65 + ((s₀.plan d 0 k).length + 1)) f
        (hb.took.firstFail_add hf) ?_ (hwas f hfree) ?_⟩
      · rw [hbody]
        exact seq_ok hrun
      · rw [copyPlan_user, ← hplan]
        exact plan_table s₀ d 0 hk (by rwa [Nat.zero_add]) (by rwa [Nat.zero_add])
      · rw [hrest f hfd, hheld]
        nofun

end

/-! ## Stores of the user -/

/-- A store of one byte by a process with the directory `dir`. -/
structure Store where
  dir : Nat
  va : Nat
  byte : UInt8

namespace Mem

/-- The page behind a user address, if the hardware lets the user use it. -/
def load (s : Mem) (d va : Nat) : Option UInt8 :=
  let pte := s.pte d (va / 4096)
  if Present pte ∧ pte &&& PTE_U ≠ 0 then some (s.page (pteAddr pte) (va % 4096)) else none

def store (s : Mem) (w : Store) : Mem :=
  let pte := s.pte w.dir (w.va / 4096)
  if Present pte ∧ pte &&& PTE_U ≠ 0 ∧ pte &&& PTE_W ≠ 0 then
    s.setPage (pteAddr pte) (Function.update (s.page (pteAddr pte)) (w.va % 4096) w.byte)
  else s

end Mem

section
variable {s s₁ s₂ : Mem} {own : Nat → Role} {p q : Nat} {w : Store}

/-- A store changes at most one page, and that is a user page of its directory. -/
theorem store_page (hD : Dir s own w.dir) (hva : w.va < KERNBASE) (f : Nat)
    (hf : ∀ v, own f ≠ .user w.dir v) : (s.store w).page f = s.page f := by
  unfold Mem.store
  dsimp only
  split
  · next h =>
    apply Mem.setPage_of_ne
    rintro rfl
    refine hf (w.va / 4096) ((hD.user _ _).2 ⟨?_, h.1, rfl⟩)
    dsimp only [KERNBASE] at hva
    omega
  · rfl

theorem store_dir (hD : Dir s own w.dir) (hva : w.va < KERNBASE) (hq : Dir s own q) :
    Dir (s.store w) own q := by
  refine (hq.congr (fun f hf => store_page hD hva f fun v => ?_) (fun _ _ => Iff.rfl)
    (fun _ _ => Iff.rfl) hq.self).1
  rcases hf with rfl | ⟨i, hi⟩
  · rw [hq.self]
    nofun
  · rw [hi]
    nofun

/-- Two memories that agree on the pages of `p`. -/
def Agree (own : Nat → Role) (p : Nat) (s₁ s₂ : Mem) : Prop :=
  ∀ f, Belongs own p f → s₁.page f = s₂.page f

theorem Agree.pte (h : Agree own p s₁ s₂) (hP : Dir s₂ own p) {v : Nat} (hv : v < 2 ^ 20) :
    s₁.pte p v = s₂.pte p v := by
  refine Mem.pte_congr (h p (.inl rfl)) fun t ht => h t (.inr (.inl ⟨v / 1024, ?_⟩))
  exact (hP.table t _).2 ⟨by omega, ht⟩

theorem Agree.load (h : Agree own p s₁ s₂) (hP : Dir s₂ own p) {va : Nat} (hva : va < KERNBASE) :
    s₁.load p va = s₂.load p va := by
  dsimp only [KERNBASE] at hva
  have hpte := h.pte hP (v := va / 4096) (by omega)
  unfold Mem.load
  dsimp only
  rw [hpte]
  split
  · next hp =>
    have huser := (hP.user _ _).2 ⟨show va / 4096 < 2 ^ 19 by omega, hp.1, rfl⟩
    rw [h _ (.inr (.inr ⟨_, huser⟩))]
  · rfl

/-- Both make the same store. -/
theorem Agree.store (h : Agree own p s₁ s₂) (hP : Dir s₂ own p) (hw : w.dir = p)
    (hva : w.va < KERNBASE) : Agree own p (s₁.store w) (s₂.store w) := by
  dsimp only [KERNBASE] at hva
  have hpte := h.pte hP (v := w.va / 4096) (by omega)
  intro f hf
  unfold Mem.store
  dsimp only
  rw [hw, hpte]
  split
  · next hp =>
    have huser := (hP.user _ _).2 ⟨show w.va / 4096 < 2 ^ 19 by omega, hp.1, rfl⟩
    have hsame := h _ (.inr (.inr ⟨_, huser⟩))
    by_cases he : f = pteAddr (s₂.pte p (w.va / 4096))
    · rw [he, Mem.setPage_self, Mem.setPage_self, hsame]
    · rw [Mem.setPage_of_ne _ _ _ he, Mem.setPage_of_ne _ _ _ he, h f hf]
  · exact h f hf

/-- A store through another directory. -/
theorem Agree.store_other (h : Agree own p s₁ s₂) (hP : Dir s₁ own p) (hD : Dir s₁ own w.dir)
    (hw : w.dir ≠ p) (hva : w.va < KERNBASE) : Agree own p (s₁.store w) s₂ := by
  intro f hf
  rw [store_page hD hva f fun v hv => ?_, h f hf]
  rcases hf with rfl | ⟨i, hi⟩ | ⟨u, hu⟩
  · exact nomatch hP.self.symm.trans hv
  · exact nomatch hi.symm.trans hv
  · cases hu.symm.trans hv
    exact hw rfl

/-- Whatever is stored through several directories, what is loaded through `p` depends only on the
stores through `p`. -/
theorem stores_isolated (hP : Dir s own p) (ws : List Store)
    (hws : ∀ w ∈ ws, Dir s own w.dir ∧ w.va < KERNBASE) {va : Nat} (hva : va < KERNBASE) :
    (ws.foldl Mem.store s).load p va =
      ((ws.filter fun w => w.dir = p).foldl Mem.store s).load p va := by
  have key : ∀ (ws : List Store) {s₁ s₂ : Mem}, Dir s₁ own p → Dir s₂ own p → Agree own p s₁ s₂ →
      (∀ w ∈ ws, Dir s₁ own w.dir ∧ w.va < KERNBASE) → (ws.foldl Mem.store s₁).load p va =
        ((ws.filter fun w => w.dir = p).foldl Mem.store s₂).load p va := by
    intro ws
    induction ws with
    | nil =>
      intro s₁ s₂ _ hP₂ h _
      exact h.load hP₂ hva
    | cons w ws ih =>
      intro s₁ s₂ hP₁ hP₂ h hws
      obtain ⟨hD, hva'⟩ := hws w mem_cons_self
      have hrest : ∀ w' ∈ ws, Dir (s₁.store w) own w'.dir ∧ w'.va < KERNBASE := by
        intro w' hw'
        obtain ⟨h1, h2⟩ := hws w' (mem_cons_of_mem w hw')
        exact ⟨store_dir hD hva' h1, h2⟩
      have hP₁' := store_dir hD hva' hP₁
      by_cases hw : w.dir = p
      · rw [filter_cons_of_pos (by simpa using hw)]
        exact ih hP₁' (store_dir (by rwa [hw]) hva' hP₂) (h.store hP₂ hw hva') hrest
      · rw [filter_cons_of_neg (by simpa using hw)]
        exact ih hP₁' hP₂ (h.store_other hP₁ hD hw hva') hrest
  exact key ws hP hP (fun _ _ => rfl) hws

end

/-! ## A memory to try -/

/-- A directory with one page, and `n` free pages. -/
theorem sample_parent (n : Nat) (hn : n ≤ 100) : ∃ (s : Mem) (own : Nat → Role) (l : List Nat),
    @Heap sampleLayout s own l ∧ Dir s own 1024 ∧ Present (s.pte 1024 0) ∧ s.FirstFail l n := by
  let _ : Layout := sampleLayout
  obtain ⟨l, hl, hH⟩ := stock_heap (n + 2) (by omega)
  have hone : (pgroundup 4096 - pgroundup 0) / 4096 = 1 := by decide
  have hzero : pgroundup 0 / 4096 = 0 := by decide
  have hplan : (stock (n + 2)).plan 1024 0 1 = [.data, .table] := by
    unfold Mem.plan
    simp [List.range', Mem.calls, stock_table]
  obtain ⟨s', own', l', -, h⟩ := allocuvm_enough hH (stock_dir (n + 2)) (stock_exact _) (Nat.zero_le 4096)
    (by decide) (fun n => by rw [stock_deny]) (by
      rw [hone, hzero, hplan, hl]
      exact Nat.le_add_left 2 n)
  rw [hone, hzero, hplan] at h
  obtain ⟨f, -, -, hpte, -⟩ := h.new 0 (Nat.le_refl _) (by decide)
  refine ⟨s', own', l', h.heap, h.dir, by rw [hpte]; exact present_mkpte (by decide), ?_⟩
  have hlen : l'.length = n := by
    rw [h.took.list, length_drop, hl]
    rfl
  refine ⟨by omega, fun m _ => ?_, .inr hlen⟩
  rw [h.took.deny, stock_deny]

/-! ## The copy is exact -/

section
variable [Layout] {s s' : Mem} {own own' : Nat → Role} {l l' : List Nat} {p d sz N : Nat}

open Classical in
/-- The roles as far as the directory `p` and the allocator go; everything else is held. -/
noncomputable def around (own : Nat → Role) (p f : Nat) : Role :=
  if own f = .free ∨ own f = .outside ∨ Belongs own p f then own f else .held

omit [Layout] in
theorem around_eq_iff {f : Nat} {r : Role} (hr : r ≠ .held)
    (hkeep : own f = r → own f = .free ∨ own f = .outside ∨ Belongs own p f) :
    around own p f = r ↔ own f = r := by
  unfold around
  split
  · exact Iff.rfl
  · next hn => exact ⟨fun h => absurd h.symm hr, fun h => absurd (hkeep h) hn⟩

theorem heap_around (hH : Heap s own l) (p : Nat) : Heap s (around own p) l := by
  refine hH.congr rfl (fun _ _ => rfl) (fun g => around_eq_iff nofun .inl) fun g hg hout => hg ?_
  exact (around_eq_iff (r := .outside) nofun fun h => .inr (.inl h)).2 hout

omit [Layout] in
theorem dir_around (hP : Dir s own p) : Dir s (around own p) p := by
  refine (hP.congr (fun _ _ => rfl) (fun f i => around_eq_iff nofun fun h => ?_)
    (fun f v => around_eq_iff nofun fun h => ?_) ?_).1
  · exact .inr (.inr (.inr (.inl ⟨i, h⟩)))
  · exact .inr (.inr (.inr (.inr ⟨v, h⟩)))
  · exact (around_eq_iff (r := .dir) nofun fun _ => .inr (.inr (.inl rfl))).2 hP.self

omit [Layout] in
theorem rooted_around (hP : Dir s own p) : Rooted (around own p) := by
  intro d hd f
  have hne : d ≠ p := by
    rintro rfl
    exact hd (dir_around hP).self
  -- a role of `p` does not speak of `d`, the others are gone
  have hnot : ∀ r : Role, (∀ i, r ≠ .table p i) → (∀ v, r ≠ .user p v) → r ≠ .dir → r ≠ .free →
      r ≠ .outside → r ≠ .held → around own p f ≠ r := by
    intro r h1 h2 h3 h4 h5 h6 he
    unfold around at he
    split at he
    · next hk =>
      subst he
      rcases hk with hk | hk | rfl | ⟨i, hk⟩ | ⟨v, hk⟩
      · exact h4 hk
      · exact h5 hk
      · exact h3 hP.self
      · exact h1 i hk
      · exact h2 v hk
    · exact h6 he.symm
  constructor
  · intro i
    refine hnot _ (fun j hj => ?_) nofun nofun nofun nofun nofun
    cases hj
    exact hne rfl
  · intro v
    refine hnot _ nofun (fun u hu => ?_) nofun nofun nofun nofun
    cases hu
    exact hne rfl

/-- With enough pages there is a child. -/
theorem copyuvm_enough (hH : Heap s own l) (hP : Dir s own p) (hsz : sz ≤ KERNBASE)
    (hN : ∀ k, k < N ↔ 4096 * k < sz) (hpages : ∀ k < N, Present (s.pte p k))
    (henough : ∀ n < (copyPlan N).length, ¬ s.FirstFail l n) :
    ∃ d s', copyuvm p sz s = .ok (some d, s') := by
  obtain ⟨r, s', own', l', hrun, -, hend⟩ := copyuvm_outcome (heap_around hH p) (rooted_around hP)
    (dir_around hP) hsz hN hpages
  cases hend with
  | child d _ _ => exact ⟨d, s', hrun⟩
  | clean n hf hn _ =>
    refine absurd hf (henough n ?_)
    by_contra hge
    rw [getElem?_eq_none (by omega)] at hn
    exact hn.elim nofun nofun
  | leak n f hf hn _ _ =>
    refine absurd hf (henough n ?_)
    by_contra hge
    rw [getElem?_eq_none (by omega)] at hn
    cases hn

/-- The directory `d` is a copy of the pages of `p` below `sz`. -/
structure ExactCopy (p d sz : Nat) (s s' : Mem) : Prop where
  flags : ∀ u, 4096 * u < sz → pteFlags (s'.pte d u) = pteFlags (s.pte p u)
  contents : ∀ u, 4096 * u < sz →
    s'.page (pteAddr (s'.pte d u)) = s.page (pteAddr (s.pte p u))
  /-- no other user mapping of the child or the parent uses the page -/
  alone : ∀ u, 4096 * u < sz → ∀ v < 2 ^ 19,
    (Present (s'.pte d v) → pteAddr (s'.pte d v) = pteAddr (s'.pte d u) → v = u) ∧
    (Present (s'.pte p v) → pteAddr (s'.pte p v) ≠ pteAddr (s'.pte d u))
  kernel : ∀ u < 2 ^ 20, pgroundup sz ≤ 4096 * u → s'.pte d u = kpte u
  parent : s'.page p = s.page p ∧ (∀ i < 1024, ∀ t, s.table p i = some t → s'.page t = s.page t) ∧
    ∀ v < 2 ^ 19, Present (s.pte p v) → s'.page (pteAddr (s.pte p v)) = s.page (pteAddr (s.pte p v))
  /-- what one of the two loads does not depend on what the other stores -/
  isolated : ∀ ws : List Store, (∀ w ∈ ws, (w.dir = p ∨ w.dir = d) ∧ w.va < KERNBASE) →
    ∀ q, q = p ∨ q = d → ∀ va < KERNBASE, (ws.foldl Mem.store s').load q va =
      ((ws.filter fun w => w.dir = q).foldl Mem.store s').load q va

omit [Layout] in
theorem or_one_of_odd {w : Nat} (h : w % 2 = 1) : w ||| 1 = w := by
  apply Nat.eq_of_testBit_eq
  intro i
  rw [Nat.testBit_or]
  cases i with
  | zero => simp [Nat.testBit_zero, h]
  | succ i => simp [Nat.testBit_succ]

theorem Child.exactCopy (hP : Dir s own p) (hb : Builds s own s' own' l')
    (h : Child p d sz s own s' own') (hsz : sz ≤ KERNBASE)
    (hpages : ∀ u, 4096 * u < sz → Present (s.pte p u)) : ExactCopy p d sz s s' := by
  have hlt : sz ≤ 2 ^ 31 := hsz
  obtain ⟨hP', hptep, hkeep⟩ := hb.other hP
  have hpage : ∀ f, Belongs own p f → s'.page f = s.page f := fun f hf => (hkeep f hf).2
  have hchild : ∀ u, 4096 * u < sz → ∃ f, own f = .free ∧ own' f = .user d u ∧
      pteAddr (s'.pte d u) = f ∧ pteFlags (s'.pte d u) = pteFlags (s.pte p u) ∧
      s'.page f = s.page (pteAddr (s.pte p u)) := by
    intro u hu
    obtain ⟨f, hfree, huser, hpte, hval⟩ := h.user u hu
    refine ⟨f, hfree, huser, ?_, ?_, hval⟩
    · rw [hpte, pteAddr_mkpte (copyPerm_lt s p u)]
    · have hodd := (present_iff _).1 (hpages u hu)
      rw [hpte, pteFlags_mkpte (copyPerm_lt s p u)]
      unfold Mem.copyPerm
      rw [or_one_of_odd]
      rw [pteFlags_eq]
      omega
  refine ⟨fun u hu => ?_, fun u hu => ?_, fun u hu v hv => ⟨fun hp ha => ?_, fun hp ha => ?_⟩,
    fun u hu hge => ?_, ⟨hpage p (.inl rfl), fun i hi t ht => ?_, fun v hv hp => ?_⟩,
    fun ws hws q hq va hva => ?_⟩
  · obtain ⟨f, -, -, -, hfl, -⟩ := hchild u hu
    exact hfl
  · obtain ⟨f, -, -, ha, -, hval⟩ := hchild u hu
    rw [ha, hval]
  · obtain ⟨f, -, huser, hau, -, -⟩ := hchild u hu
    have := (h.dir.user _ v).2 ⟨hv, hp, rfl⟩
    rw [ha, hau, huser] at this
    cases this
    rfl
  · obtain ⟨f, hfree, -, hau, -, -⟩ := hchild u hu
    rw [hptep v (by omega)] at hp ha
    have := (hP.user _ v).2 ⟨hv, hp, rfl⟩
    rw [ha, hau, hfree] at this
    cases this
  · refine h.rest u hu ?_
    rw [pgroundup_eq sz hsz] at hge
    omega
  · exact hpage t (.inr (.inl ⟨i, (hP.table t i).2 ⟨hi, ht⟩⟩))
  · exact hpage _ (.inr (.inr ⟨v, (hP.user _ v).2 ⟨hv, hp, rfl⟩⟩))
  · have hdirs : ∀ q, q = p ∨ q = d → Dir s' own' q := by
      rintro q (rfl | rfl)
      · exact hP'
      · exact h.dir
    exact stores_isolated (hdirs q hq) ws (fun w hw => ⟨hdirs _ (hws w hw).1, (hws w hw).2⟩) hva

/-- When `copyuvm` returns a directory, it is an exact copy. -/
theorem copyuvm_exactCopy (s : Mem) (own : Nat → Role) (l : List Nat) (p sz : Nat)
    (hH : Heap s own l) (hP : Dir s own p) (hsz : sz ≤ KERNBASE)
    (hpages : ∀ u, 4096 * u < sz → Present (s.pte p u)) :
    ∃ r s', copyuvm p sz s = .ok (r, s') ∧ ∀ d, r = some d → ExactCopy p d sz s s' := by
  obtain ⟨r, s', own', l', hrun, hb, hend⟩ := copyuvm_outcome (N := (sz + 4095) / 4096)
    (heap_around hH p) (rooted_around hP) (dir_around hP) hsz (fun k => by omega)
    fun k hk => hpages k (by omega)
  refine ⟨r, s', hrun, ?_⟩
  rintro d rfl
  cases hend with
  | child _ h _ => exact h.exactCopy (dir_around hP) hb hsz hpages

end

/-- A directory with one page is copied. -/
theorem copyuvm_exactCopy_page : ∃ (_ : Layout) (s s' : Mem) (d : Nat), Present (s.pte 1024 0) ∧
    copyuvm 1024 4096 s = .ok (some d, s') ∧ ExactCopy 1024 d 4096 s s' := by
  let _ : Layout := sampleLayout
  obtain ⟨s, own, l, hH, hD, hpres, hlast⟩ := sample_parent 67 (by decide)
  have hpages : ∀ u, 4096 * u < 4096 → Present (s.pte 1024 u) := by
    intro u hu
    obtain rfl : u = 0 := by omega
    exact hpres
  obtain ⟨d, s', hrun⟩ := copyuvm_enough (N := 1) hH hD (show 4096 ≤ KERNBASE by decide)
    (fun k => by omega) (fun k hk => hpages k (by omega)) fun n hn hf => by
      rw [hf.unique hlast] at hn
      exact absurd hn (by decide)
  obtain ⟨r, s₁, hrun₁, hcopy⟩ := copyuvm_exactCopy s own l 1024 4096 hH hD (by decide) hpages
  rw [hrun] at hrun₁
  cases hrun₁
  exact ⟨sampleLayout, s, s', d, hpres, hrun, hcopy d rfl⟩

end Xv6.Vm
