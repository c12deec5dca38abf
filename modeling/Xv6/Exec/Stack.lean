import Xv6.Exec.Model
import Xv6.Vm.Image

/-!
# The stack that `exec` makes

The strings are pushed one below the other and the frame below all of them.  A string that does not
fit into the page reaches into the guard page, or, when the subtraction wraps, into the kernel part,
and `copyout` refuses both (`pushArgs_spec`).
-/

namespace Xv6.Exec

open List
open Vm (Mem Layout Role Heap Dir Image Wrote Within Placed VM KERNBASE PTE_U)

/-! ## What the user finds -/

/-- The bytes `bs` are at the user address `a`. -/
def Holds (s : Mem) (d a : Nat) (bs : List UInt8) : Prop :=
  ∀ i < bs.length, s.load d (a + i) = bs[i]?

/-- The `i`-th pointer of the array at `a` is aligned and points to a copy of the `i`-th argument. -/
def Pointer (s : Mem) (d a : Nat) (argv : List (List UInt8)) (ptrs : List Nat) (i : Nat) : Prop :=
  ∃ p arg, ptrs[i]? = some p ∧ argv[i]? = some arg ∧ p % 4 = 0 ∧ Holds s d (a + 4 * i) (bytes p) ∧
    Holds s d p (arg ++ [0])

/-- The stretches of memory that are used: the strings and the frame at `esp`. -/
def regions (esp : Nat) (argv : List (List UInt8)) (ptrs : List Nat) : List (Nat × Nat) :=
  (ptrs.zip argv).map (fun x => (x.1, x.2.length + 1)) ++ [(esp, 4 * (argv.length + 4))]

/-- The page below `sz` has the frame of `main(argc, argv)` at `esp`, with the arguments, and the page
below it is closed to the user. -/
structure Stack (s : Mem) (d sz esp : Nat) (argv : List (List UInt8)) (ptrs : List Nat) : Prop where
  pages : 8192 ≤ sz ∧ sz % 4096 = 0
  count : ptrs.length = argv.length
  aligned : esp % 4 = 0
  pc : Holds s d esp (bytes 0xffffffff)
  argc : Holds s d (esp + 4) (bytes argv.length)
  array : Holds s d (esp + 8) (bytes (esp + 12))
  pointers : ∀ i < argv.length, Pointer s d (esp + 12) argv ptrs i
  null : Holds s d (esp + 12 + 4 * argv.length) (bytes 0)
  inside : ∀ r ∈ regions esp argv ptrs, sz - 4096 ≤ r.1 ∧ r.1 + r.2 ≤ sz
  apart : (regions esp argv ptrs).Pairwise fun r r' => r'.1 + r'.2 ≤ r.1
  guard : s.pte d (sz / 4096 - 2) &&& PTE_U = 0

section
variable {s s' : Mem} {d a : Nat}

theorem holds_append (bs cs : List UInt8) :
    Holds s d a (bs ++ cs) ↔ Holds s d a bs ∧ Holds s d (a + bs.length) cs := by
  constructor
  · intro h
    refine ⟨fun i hi => ?_, fun i hi => ?_⟩
    · rw [h i (by rw [length_append]; omega), getElem?_append_left hi]
    · rw [Nat.add_assoc, h (bs.length + i) (by rw [length_append]; omega),
        getElem?_append_right (by omega), Nat.add_sub_cancel_left]
  · rintro ⟨h1, h2⟩ i hi
    rw [length_append] at hi
    by_cases hlt : i < bs.length
    · rw [h1 i hlt, getElem?_append_left hlt]
    · rw [getElem?_append_right (by omega), ← h2 (i - bs.length) (by omega)]
      congr 1
      omega

/-- Words one after the other. -/
theorem Holds.words {ws : List Nat} (h : Holds s d a (ws.flatMap bytes)) {i w : Nat}
    (hi : ws[i]? = some w) : Holds s d (a + 4 * i) (bytes w) := by
  induction ws generalizing a i with
  | nil => cases hi
  | cons v ws ih =>
    rw [flatMap_cons, holds_append] at h
    cases i with
    | zero =>
      cases hi
      exact h.1
    | succ i =>
      have := ih h.2 hi
      rwa [show a + (bytes v).length + 4 * i = a + 4 * (i + 1) by
        rw [show (bytes v).length = 4 from rfl]; omega] at this

theorem Holds.congr {bs : List UInt8} (h : Holds s d a bs)
    (he : ∀ b, a ≤ b → b < a + bs.length → s'.load d b = s.load d b) : Holds s' d a bs := by
  intro i hi
  rw [he (a + i) (by omega) (by omega)]
  exact h i hi

theorem words_length (ws : List Nat) : (ws.flatMap bytes).length = 4 * ws.length := by
  rw [length_flatMap]
  induction ws with
  | nil => rfl
  | cons w ws ih =>
    rw [map_cons, sum_cons, ih, length_cons, show (bytes w).length = 4 from rfl]
    omega

end

/-! ## The strings -/

/-- The arguments `argv` have been pushed, at `ptrs`, and `sp` is below them. -/
structure Pushed (s : Mem) (d sz sp : Nat) (argv : List (List UInt8)) (ptrs : List Nat) :
    Prop where
  count : ptrs.length = argv.length
  few : ptrs.length ≤ MAXARG
  sp_aligned : sp % 4 = 0
  low : sz - 4096 ≤ sp
  high : sp ≤ sz
  strings : ∀ x ∈ ptrs.zip argv, x.1 % 4 = 0 ∧ sp ≤ x.1 ∧ x.1 + (x.2.length + 1) ≤ sz ∧
    Holds s d x.1 (x.2 ++ [0])
  apart : (ptrs.zip argv).Pairwise fun x y => y.1 + (y.2.length + 1) ≤ x.1

/-- A push that stays in the user part has not wrapped. -/
theorem pushDown_fits {sp n : Nat} (hsp : sp ≤ KERNBASE) (hal : sp % 4 = 0)
    (hfit : pushDown sp n + n ≤ KERNBASE) :
    pushDown sp n + n ≤ sp ∧ sp < pushDown sp n + n + 4 ∧ pushDown sp n % 4 = 0 := by
  unfold pushDown at hfit ⊢
  dsimp only [KERNBASE] at hsp hfit
  omega

section
variable [Layout] {s s' : Mem} {own : Nat → Role} {l : List Nat} {d sz sp : Nat}

variable {buf : List UInt8} {argv : List (List UInt8)} {ptrs : List Nat}

omit [Layout] in
/-- A copy that ends just below `sp` or higher starts in the stack page or fails at the guard page. -/
theorem placed_low {va : Nat} (h : Placed d va buf s s') (hpos : buf ≠ [])
    (hpages : 8192 ≤ sz ∧ sz % 4096 = 0) (hguard : s.pte d (sz / 4096 - 2) &&& PTE_U = 0)
    (hend : sz - 4096 < va + buf.length + 4) (hva : va % 4 = 0) : sz - 4096 ≤ va := by
  by_contra hlt
  have hlen := length_pos_iff.2 hpos
  refine h.2.1 (min (va + buf.length - 1) (sz - 4097)) (by omega) (by omega) ?_
  rw [show min (va + buf.length - 1) (sz - 4097) / 4096 = sz / 4096 - 2 by omega]
  exact hguard

omit [Layout] in
/-- What is copied below `sp` leaves the strings alone. -/
theorem Pushed.keep {va : Nat}
    (hp : Pushed s d sz sp argv ptrs) (h : Placed d va buf s s') (hsz : sz ≤ KERNBASE)
    (hend : va + buf.length ≤ sp) : Pushed s' d sz sp argv ptrs := by
  refine ⟨hp.count, hp.few, hp.sp_aligned, hp.low, hp.high, fun x hx => ?_, hp.apart⟩
  obtain ⟨h1, h2, h3, h4⟩ := hp.strings x hx
  refine ⟨h1, h2, h3, h4.congr fun b hb hlt => ?_⟩
  rw [length_append, length_singleton] at hlt
  rw [h.2.2 b (by omega), if_neg (by omega)]

omit [Layout] in
theorem placed_holds {va : Nat} (h : Placed d va buf s s') (hne : buf ≠ []) :
    Holds s' d va buf := by
  intro i hi
  have := h.1 hne
  rw [h.2.2 (va + i) (by omega), if_pos (by omega), Nat.add_sub_cancel_left]

omit [Layout] in
/-- One more string. -/
theorem Pushed.push {arg : List UInt8}
    (hp : Pushed s d sz sp argv ptrs) (hfew : ptrs.length < MAXARG) (hsz : sz ≤ KERNBASE)
    (hpages : 8192 ≤ sz ∧ sz % 4096 = 0) (hguard : s.pte d (sz / 4096 - 2) &&& PTE_U = 0)
    (h : Placed d (pushDown sp (arg.length + 1)) (arg ++ [0]) s s') :
    Pushed s' d sz (pushDown sp (arg.length + 1)) (argv ++ [arg])
      (ptrs ++ [pushDown sp (arg.length + 1)]) := by
  have hne : arg ++ [0] ≠ [] := append_ne_nil_of_right_ne_nil _ (cons_ne_nil _ _)
  have hlen : (arg ++ [0]).length = arg.length + 1 := length_append
  have hfit := h.1 hne
  rw [hlen] at hfit
  have hhigh := hp.high
  have hlow := hp.low
  obtain ⟨h1, h2, h3⟩ := pushDown_fits (by omega) hp.sp_aligned hfit
  have hbase := placed_low h hne hpages hguard (by rw [hlen]; omega) h3
  have hkeep := hp.keep h hsz (by rw [hlen]; exact h1)
  have hzip : (ptrs ++ [pushDown sp (arg.length + 1)]).zip (argv ++ [arg]) =
      ptrs.zip argv ++ [(pushDown sp (arg.length + 1), arg)] := zip_append hp.count
  refine ⟨?_, ?_, h3, hbase, by omega, fun x hx => ?_, ?_⟩
  · rw [length_append, length_append, hp.count]
    rfl
  · rw [length_append, length_singleton]
    exact hfew
  · rw [hzip, mem_append, mem_singleton] at hx
    rcases hx with hx | rfl
    · obtain ⟨k1, k2, k3, k4⟩ := hkeep.strings x hx
      exact ⟨k1, by omega, k3, k4⟩
    · exact ⟨h3, Nat.le_refl _, by show _ + (arg.length + 1) ≤ sz; omega, placed_holds h hne⟩
  · rw [hzip, pairwise_append]
    refine ⟨hp.apart, pairwise_singleton .., fun x hx y hy => ?_⟩
    rw [mem_singleton] at hy
    subst hy
    have := (hp.strings x hx).2.1
    show _ + (arg.length + 1) ≤ _
    omega

theorem pushArgs_spec (hsz : sz ≤ KERNBASE) (hpages : 8192 ≤ sz ∧ sz % 4096 = 0)
    (argv : List (List UInt8)) : ∀ {s : Mem} {sp : Nat} {ptrs : List Nat}
    {done : List (List UInt8)}, Image s own l d sz → s.pte d (sz / 4096 - 2) &&& PTE_U = 0 →
    Pushed s d sz sp done ptrs →
    Run (fun _ => True) (fun r s' => Wrote own d s s' ∧ ∀ x, r = some x →
      Pushed s' d sz x.1 (done ++ argv) x.2) (pushArgs d argv sp ptrs) s := by
  induction argv with
  | nil =>
    intro s sp ptrs done hI hguard hp
    refine Run.pure ⟨.refl own d s, fun x hx => ?_⟩
    cases hx
    rwa [append_nil]
  | cons arg argv ih =>
    intro s sp ptrs done hI hguard hp
    rw [pushArgs]
    refine Run.ite (fun _ => Run.pure ⟨.refl own d s, nofun⟩) fun hfew => ?_
    have hva : pushDown sp (arg.length + 1) < 2 ^ 32 := by
      unfold pushDown
      omega
    refine Run.bind (Vm.copyout_spec hI hva (arg ++ [0])) fun b s₁ ⟨hw, hb⟩ => ?_
    cases b with
    | false => exact Run.pure ⟨hw, nofun⟩
    | true =>
      have hp₁ := hp.push (by omega) hsz hpages hguard (hb rfl)
      have hpte := (hw.dir hI.dir).2.2 (sz / 4096 - 2) (by
        dsimp only [KERNBASE] at hsz
        omega)
      refine (ih (hI.wrote hw) (by rw [hpte]; exact hguard) hp₁).mono fun r s' ⟨hw', hr⟩ =>
        ⟨hw.trans hw', fun x hx => ?_⟩
      have := hr x hx
      rwa [append_assoc] at this

/-! ## The frame -/

omit [Layout] in
/-- The frame below the strings. -/
theorem Pushed.stack {esp : Nat}
    (hp : Pushed s d sz sp argv ptrs) (hsz : sz ≤ KERNBASE) (hpages : 8192 ≤ sz ∧ sz % 4096 = 0)
    (hguard : s.pte d (sz / 4096 - 2) &&& PTE_U = 0)
    (hguard' : s'.pte d (sz / 4096 - 2) &&& PTE_U = 0) (hesp : esp + 4 * (ptrs.length + 4) = sp)
    (h : Placed d esp
      ((0xffffffff :: ptrs.length :: (esp + 12) :: ptrs ++ [0]).flatMap bytes) s s') :
    Stack s' d sz esp argv ptrs := by
  have hfew := hp.few
  have hlow := hp.low
  have hhigh := hp.high
  have hal := hp.sp_aligned
  have hcount := hp.count
  dsimp only [MAXARG] at hfew
  generalize hws : (0xffffffff :: ptrs.length :: (esp + 12) :: ptrs ++ [0]) = ws at h
  have hlen : (ws.flatMap bytes).length = 4 * (ptrs.length + 4) := by
    rw [words_length, ← hws]
    simp
  have hne : ws.flatMap bytes ≠ [] := length_pos_iff.1 (by omega)
  have hbase := placed_low h hne hpages hguard (by omega) (by omega)
  have hkeep := hp.keep h hsz (by omega)
  have hframe := placed_holds h hne
  have h0 : ws[0]? = some 0xffffffff := by
    rw [← hws]
    simp
  have h1 : ws[1]? = some argv.length := by
    rw [← hws, hcount]
    simp
  have h2 : ws[2]? = some (esp + 12) := by
    rw [← hws]
    simp
  have hlast : ws[argv.length + 3]? = some 0 := by
    rw [← hws, ← hcount]
    simp
  have hptr : ∀ i (hi : i < ptrs.length), ws[i + 3]? = some ptrs[i] := by
    intro i hi
    rw [← hws]
    simp [getElem?_append_left hi]
  have hw0 := hframe.words h0
  have hw1 := hframe.words h1
  have hw2 := hframe.words h2
  refine ⟨hpages, hcount, by omega, hw0, hw1, hw2, fun i hi => ?_, ?_, fun r hr => ?_, ?_, hguard'⟩
  · have hi' : i < ptrs.length := by omega
    have hmem : (ptrs[i], argv[i]) ∈ ptrs.zip argv := by
      refine mem_iff_getElem.2 ⟨i, ?_, getElem_zip⟩
      rw [length_zip]
      omega
    obtain ⟨k1, -, -, k4⟩ := hkeep.strings _ hmem
    refine ⟨ptrs[i], argv[i], getElem?_eq_getElem hi', getElem?_eq_getElem hi, k1, ?_, k4⟩
    have := hframe.words (hptr i hi')
    rwa [show esp + 4 * (i + 3) = esp + 12 + 4 * i by omega] at this
  · have := hframe.words hlast
    rwa [show esp + 4 * (argv.length + 3) = esp + 12 + 4 * argv.length by omega] at this
  · unfold regions at hr
    rw [mem_append, mem_map, mem_singleton] at hr
    rcases hr with ⟨x, hx, rfl⟩ | rfl
    · obtain ⟨-, k2, k3, -⟩ := hkeep.strings x hx
      exact ⟨by show sz - 4096 ≤ x.1; omega, k3⟩
    · refine ⟨hbase, ?_⟩
      show esp + 4 * (argv.length + 4) ≤ sz
      omega
  · unfold regions
    rw [pairwise_append, pairwise_map]
    refine ⟨hp.apart, pairwise_singleton .., fun r hr r' hr' => ?_⟩
    rw [mem_map] at hr
    rw [mem_singleton] at hr'
    obtain ⟨x, hx, rfl⟩ := hr
    subst hr'
    have := (hp.strings x hx).2.1
    show esp + 4 * (argv.length + 4) ≤ x.1
    omega

/-- The stack is made, or the call fails; what was there of the new directory stays within it. -/
theorem setupStack_spec (h : Image s own l d sz) (hsz : sz < KERNBASE) (argv : List (List UInt8)) :
    Run (fun _ => True) (fun r s' => ∃ own' l', Within d s own s' own' l' ∧
      ∀ x, r = some x → x.1 ≤ KERNBASE ∧ Image s' own' l' d x.1 ∧
        ∃ ptrs, Stack s' d x.1 x.2 argv ptrs) (setupStack d sz argv) s := by
  have hup := Vm.pgroundup_eq sz (Nat.le_of_lt hsz)
  have hsz' : sz < 2 ^ 31 := hsz
  have hI : Image s own l d (Vm.pgroundup sz) :=
    ⟨h.heap, h.dir, h.kern, h.zero, fun u hu hge => h.above u hu (by omega)⟩
  have hmod : (Vm.pgroundup sz + 2 * Vm.PGSIZE) % 2 ^ 32 = Vm.pgroundup sz + 8192 := by
    dsimp only [Vm.PGSIZE]
    omega
  have hle : Vm.pgroundup sz ≤ KERNBASE := by
    dsimp only [KERNBASE]
    omega
  unfold setupStack
  dsimp only
  rw [hmod]
  generalize hN : Vm.pgroundup sz + 8192 = newsz
  obtain ⟨r, s₁, own₁, l₁, hrun, hloc, hr⟩ := Vm.allocuvm_image newsz hI hle
  refine Run.bind_eq hrun (Run.ite (fun _ => Run.pure ⟨own₁, l₁, hloc.within, nofun⟩) fun h0 => ?_)
  obtain ⟨hlt, hmax, hI₁, -, -⟩ := hr h0
  have hlt' : newsz < 2 ^ 31 := hlt
  have hr' : r = 4096 * ((sz + 4095) / 4096) + 8192 := by omega
  have hguardva : (r + (2 ^ 32 - 2 * Vm.PGSIZE)) % 2 ^ 32 = 4096 * ((sz + 4095) / 4096) := by
    dsimp only [Vm.PGSIZE]
    omega
  have hidx : r / 4096 - 2 = (sz + 4095) / 4096 := by omega
  rw [hguardva]
  rcases Vm.clearpteu_cases hI₁ (v := (sz + 4095) / 4096) (by omega) with
    ⟨-, hpanic⟩ | ⟨s₂, hrun₂, hI₂, hloc₂, hguard, -⟩
  · unfold Run
    rw [seq_error hpanic]
    exact trivial
  · refine Run.bind_eq hrun₂ ?_
    have hsz₂ : r ≤ KERNBASE := by
      dsimp only [KERNBASE]
      omega
    have hpages : 8192 ≤ r ∧ r % 4096 = 0 := by omega
    have hw₂ := hloc.within.trans hloc₂.within
    have hguard₂ : s₂.pte d (r / 4096 - 2) &&& PTE_U = 0 := by
      rw [hidx]
      exact hguard
    have hstart : Pushed s₂ d r r [] [] :=
      ⟨rfl, Nat.zero_le _, by omega, by omega, Nat.le_refl _, nofun, List.Pairwise.nil⟩
    refine Run.bind (pushArgs_spec hsz₂ hpages argv hI₂ hguard₂ hstart) fun x s₃ ⟨hw₃, hx⟩ => ?_
    have hin₃ := hw₂.trans (hw₃.within hI₂.heap hI₂.dir)
    cases x with
    | none => exact Run.pure ⟨own₁, l₁, hin₃, nofun⟩
    | some x =>
      obtain ⟨sp, ptrs⟩ := x
      have hp : Pushed s₃ d r sp argv ptrs := hx _ rfl
      have hfew := hp.few
      have hlow := hp.low
      have hhigh := hp.high
      dsimp only [MAXARG] at hfew
      have hI₃ := hI₂.wrote hw₃
      have hpte₃ := (hw₃.dir hI₂.dir).2.2 (r / 4096 - 2) (by omega)
      have hguard₃ : s₃.pte d (r / 4096 - 2) &&& PTE_U = 0 := by
        rw [hpte₃]
        exact hguard₂
      obtain ⟨esp, hesp⟩ : ∃ esp, esp + 4 * (ptrs.length + 4) = sp :=
        ⟨sp - 4 * (ptrs.length + 4), by omega⟩
      have harray : (sp + (2 ^ 32 - (ptrs.length + 1) * 4)) % 2 ^ 32 = esp + 12 := by omega
      have htop : (sp + (2 ^ 32 - (3 + ptrs.length + 1) * 4)) % 2 ^ 32 = esp := by omega
      dsimp only
      rw [harray, htop]
      refine Run.bind (Vm.copyout_spec hI₃ (by omega) _) fun b s₄ ⟨hw₄, hb⟩ => ?_
      have hin₄ := hin₃.trans (hw₄.within hI₃.heap hI₃.dir)
      cases b with
      | false => exact Run.pure ⟨own₁, l₁, hin₄, nofun⟩
      | true =>
        refine Run.pure ⟨own₁, l₁, hin₄, fun y hy => ?_⟩
        cases hy
        have hpte₄ := (hw₄.dir hI₃.dir).2.2 (r / 4096 - 2) (by omega)
        exact ⟨hsz₂, hI₃.wrote hw₄, ptrs, hp.stack hsz₂ hpages hguard₃
          (by rw [hpte₄]; exact hguard₃) hesp (hb rfl)⟩

end

end Xv6.Exec
