import Xv6.Vm.Grow

/-!
# The kernel part of a page directory

`setupkvm` maps the four ranges of `kmap`, which lie above `KERNBASE` and take 64 tables
(`setupkvm_spec`).  When there is no page for a table it returns 0, and the directory with the tables
it has so far is lost.
-/

namespace Xv6.Vm

open Function List

/-! ## Ranges -/

namespace Kmap

def size (k : Kmap) : Nat := (k.physEnd + 2 ^ 32 - k.physStart) % 2 ^ 32

/-- The page number `u` lies in the range. -/
def Covers (k : Kmap) (u : Nat) : Prop := k.virt ≤ 4096 * u ∧ 4096 * u < k.virt + k.size

instance (k : Kmap) (u : Nat) : Decidable (k.Covers u) := inferInstanceAs (Decidable (_ ∧ _))

/-- The entry for the page number `u` of the range. -/
def pte (k : Kmap) (u : Nat) : Nat := mkpte ((k.physStart + (4096 * u - k.virt)) / 4096) k.perm

/-- The range is `n + 1` pages, from the page number `v` on, and stands for the pages from `f` on. -/
structure Whole (k : Kmap) (v n f : Nat) : Prop where
  virt : k.virt = 4096 * v
  size : k.size = 4096 * (n + 1)
  phys : k.physStart = 4096 * f
  perm : k.perm < 4096
  virt_lt : v + n < 2 ^ 20
  phys_lt : f + n < 2 ^ 20

variable {k : Kmap} {u v n f : Nat}

theorem Whole.covers (h : k.Whole v n f) : k.Covers u ↔ v ≤ u ∧ u < v + (n + 1) := by
  unfold Covers
  rw [h.virt, h.size]
  omega

theorem Whole.pte (h : k.Whole v n f) (hu : v ≤ u) : k.pte u = mkpte (f + (u - v)) k.perm := by
  unfold Kmap.pte
  rw [h.virt, h.phys, show (4096 * f + (4096 * u - 4096 * v)) / 4096 = f + (u - v) by omega]

end Kmap

/-- The range of a list that the page number `u` lies in. -/
def rangeOf (ks : List Kmap) (u : Nat) : Option Kmap := ks.find? fun k => k.Covers u

/-- What every directory has above `KERNBASE`. -/
def kpte [Layout] (u : Nat) : Nat :=
  match rangeOf kmap u with
  | some k => k.pte u
  | none => 0

section
variable [Layout]

/-- The page of `data`. -/
theorem data_page : ∃ b, Layout.data = 4096 * b ∧ 256 < b ∧ b ≤ 1024 := by
  have h1 := Layout.data_aligned
  have h2 := Layout.text_pos
  have h3 := Layout.data_le
  have h4 := Layout.end_le
  dsimp only [PGSIZE, EXTMEM] at h1 h2
  exact ⟨Layout.data / 4096, by omega, by omega, by omega⟩

theorem kmap_whole {b : Nat} (hb : Layout.data = 4096 * b) (h1 : 256 < b) (h2 : b ≤ 1024) :
    ∃ k₁ k₂ k₃ k₄, kmap = [k₁, k₂, k₃, k₄] ∧ k₁.Whole (2 ^ 19) 255 0 ∧
      k₂.Whole (2 ^ 19 + 256) (b - 257) 256 ∧ k₃.Whole (2 ^ 19 + b) (0xE000 - b - 1) b ∧
      k₄.Whole 0xFE000 8191 0xFE000 := by
  refine ⟨_, _, _, _, rfl, ?_, ?_, ?_, ?_⟩
  · exact ⟨rfl, rfl, rfl, by decide, by decide, by decide⟩
  · refine ⟨rfl, ?_, rfl, show 0 < 4096 by decide, by omega, by omega⟩
    show (Layout.data + 2 ^ 32 - EXTMEM) % 2 ^ 32 = _
    rw [hb]
    dsimp only [EXTMEM]
    omega
  · refine ⟨?_, ?_, hb, show PTE_W < 4096 by decide, by omega, by omega⟩
    · show KERNBASE + Layout.data = _
      rw [hb]
      dsimp only [KERNBASE]
      omega
    · show (PHYSTOP + 2 ^ 32 - Layout.data) % 2 ^ 32 = _
      rw [hb]
      dsimp only [PHYSTOP]
      omega
  · exact ⟨rfl, rfl, rfl, by decide, by decide, by decide⟩

theorem kmap_all_whole : ∀ k ∈ kmap, ∃ v n f, k.Whole v n f := by
  obtain ⟨b, hb, h1, h2⟩ := data_page
  obtain ⟨k₁, k₂, k₃, k₄, hk, w₁, w₂, w₃, w₄⟩ := kmap_whole hb h1 h2
  rw [hk]
  intro k hkm
  simp only [mem_cons, not_mem_nil, or_false] at hkm
  rcases hkm with rfl | rfl | rfl | rfl
  · exact ⟨_, _, _, w₁⟩
  · exact ⟨_, _, _, w₂⟩
  · exact ⟨_, _, _, w₃⟩
  · exact ⟨_, _, _, w₄⟩

/-- The page numbers of all ranges together. -/
theorem kmap_covers (u : Nat) : (∃ k ∈ kmap, k.Covers u) ↔
    (2 ^ 19 ≤ u ∧ u < 0x8E000) ∨ (0xFE000 ≤ u ∧ u < 2 ^ 20) := by
  obtain ⟨b, hb, h1, h2⟩ := data_page
  obtain ⟨k₁, k₂, k₃, k₄, hk, w₁, w₂, w₃, w₄⟩ := kmap_whole hb h1 h2
  rw [hk]
  simp only [mem_cons, not_mem_nil, or_false, exists_eq_or_imp, exists_eq_left, w₁.covers,
    w₂.covers, w₃.covers, w₄.covers]
  omega

/-- The entries of the kernel part are not open to the user. -/
theorem kpte_cases (u : Nat) : (kpte u = 0 ∧ ∀ k ∈ kmap, ¬ k.Covers u) ∨
    ∃ k ∈ kmap, k.Covers u ∧ kpte u = k.pte u ∧ k.perm < 4096 ∧ k.perm &&& PTE_U = 0 := by
  unfold kpte
  split
  · next k hr =>
    have hk : k ∈ kmap := mem_of_find?_eq_some hr
    have hc := find?_some hr
    obtain ⟨v, n, f, hw⟩ := kmap_all_whole k hk
    refine .inr ⟨k, hk, by simpa using hc, rfl, hw.perm, ?_⟩
    unfold kmap at hk
    simp only [mem_cons, not_mem_nil, or_false] at hk
    have hperm : k.perm = PTE_W ∨ k.perm = 0 := by
      rcases hk with rfl | rfl | rfl | rfl
      · exact .inl rfl
      · exact .inr rfl
      · exact .inl rfl
      · exact .inl rfl
    rcases hperm with hp | hp
    · rw [hp]
      rfl
    · rw [hp]
      rfl
  · next hr =>
    refine .inl ⟨rfl, fun k hk hc => ?_⟩
    have := find?_eq_none.1 hr k hk
    exact this (by simpa using hc)

/-- Physical memory is mapped as a whole. -/
theorem kpte_direct {f : Nat} (hf : f < 0xE000) :
    Present (kpte (2 ^ 19 + f)) ∧ pteAddr (kpte (2 ^ 19 + f)) = f := by
  have hcov := (kmap_covers (2 ^ 19 + f)).2 (by omega)
  rcases kpte_cases (2 ^ 19 + f) with ⟨-, hno⟩ | ⟨k, hk, hc, he, hp, -⟩
  · obtain ⟨k, hk, hc⟩ := hcov
    exact absurd hc (hno k hk)
  · rw [he]
    refine ⟨present_mkpte hp, ?_⟩
    obtain ⟨b, hb, h1, h2⟩ := data_page
    obtain ⟨k₁, k₂, k₃, k₄, hks, w₁, w₂, w₃, w₄⟩ := kmap_whole hb h1 h2
    rw [hks] at hk
    simp only [mem_cons, not_mem_nil, or_false] at hk
    rcases hk with rfl | rfl | rfl | rfl
    · rw [w₁.pte (w₁.covers.1 hc).1, pteAddr_mkpte hp]
      omega
    · have := (w₂.covers.1 hc).1
      rw [w₂.pte this, pteAddr_mkpte hp]
      omega
    · have := (w₃.covers.1 hc).1
      rw [w₃.pte this, pteAddr_mkpte hp]
      omega
    · have := (w₄.covers.1 hc).1
      omega

theorem kmap_pairwise : kmap.Pairwise fun k k' => ∀ u, k.Covers u → ¬ k'.Covers u := by
  obtain ⟨b, hb, h1, h2⟩ := data_page
  obtain ⟨k₁, k₂, k₃, k₄, hk, w₁, w₂, w₃, w₄⟩ := kmap_whole hb h1 h2
  rw [hk]
  simp only [pairwise_cons, mem_cons, not_mem_nil, or_false, forall_eq_or_imp,
    forall_eq, w₁.covers, w₂.covers, w₃.covers, w₄.covers, false_imp_iff, implies_true,
    List.Pairwise.nil, and_true]
  refine ⟨⟨?_, ?_, ?_⟩, ⟨?_, ?_⟩, ?_⟩ <;> intro u hu <;> omega

end

/-! ## Mapping the ranges -/

/-- Tables have been added for page numbers of the ranges `ks`, in `c` calls of `kalloc`. -/
structure Laid [Layout] (d : Nat) (ks : List Kmap) (c : Nat) (s : Mem) (own : Nat → Role)
    (l : List Nat) (s' : Mem) (own' : Nat → Role) (l' : List Nat) : Prop where
  heap : Heap s' own' l'
  tabs : Tables s' own' d
  pte : ∀ u < 2 ^ 20, (∀ k ∈ ks, ¬ k.Covers u) → s'.pte d u = s.pte d u
  range : ∀ i, s'.table d i ≠ none → s.table d i ≠ none ∨ ∃ k ∈ ks, ∃ u, k.Covers u ∧ u / 1024 = i
  maps : Maps d s own s' own'
  took : Took c s l s' l'
  ntab : s'.ntab d = s.ntab d + c

section
variable [Layout] {s s₁ s' : Mem} {own own₁ own' : Nat → Role} {l l₁ l' : List Nat}
  {d v n f m c c' : Nat} {k : Kmap} {ks : List Kmap}

theorem Mapped.laid (h : Mapped d v m f k.perm c s own l s' own' l') (hw : k.Whole v n f)
    (hm : m ≤ n + 1) : Laid d (k :: ks) c s own l s' own' l' := by
  refine ⟨h.heap, h.tabs, fun u hu hn => ?_, fun i hi => ?_, h.maps, h.took, h.ntab⟩
  · have := hn k mem_cons_self
    rw [hw.covers] at this
    rw [h.pte u hu, if_neg (by omega)]
  · refine (h.range i hi).imp_right fun hr => ⟨k, mem_cons_self, ?_⟩
    by_cases hv : v ≤ 1024 * i
    · exact ⟨1024 * i, hw.covers.2 (by omega), by omega⟩
    · exact ⟨v, hw.covers.2 (by omega), by omega⟩

theorem Laid.trans (h : Laid d (k :: ks) c s own l s₁ own₁ l₁)
    (h' : Laid d ks c' s₁ own₁ l₁ s' own' l') : Laid d (k :: ks) (c + c') s own l s' own' l' := by
  refine ⟨h'.heap, h'.tabs, fun u hu hn => ?_, fun i hi => ?_, h.maps.trans h'.maps,
    h.took.trans h'.took, ?_⟩
  · rw [h'.pte u hu fun k' hk' => hn k' (mem_cons_of_mem k hk'), h.pte u hu hn]
  · rcases h'.range i hi with h1 | ⟨k', hk', hu⟩
    · exact h.range i h1
    · exact .inr ⟨k', mem_cons_of_mem k hk', hu⟩
  · rw [h'.ntab, h.ntab, Nat.add_assoc]

/-- `mappages` over any bytes enters the pages they lie on, or the first of these. -/
theorem mappages_enters (hH : Heap s own l) (hT : Tables s own d) {va size pa perm : Nat}
    (hsize : 0 < size) (hva : va + size - 1 < 2 ^ 32) (hpa : pa < 2 ^ 32) (hp : perm < 2 ^ 32)
    (hfree : ∀ a, va ≤ a → a < va + size → ¬ Present (s.pte d (a / 4096))) :
    ∃ m c b s' own' l' s₁, mappages d va size pa perm s = .ok (b, s₁) ∧
      (b = true → va / 4096 + m = (va + size - 1) / 4096 + 1) ∧
      va / 4096 + m ≤ (va + size - 1) / 4096 + 1 ∧ (∀ u, s₁.pte d u = s'.pte d u) ∧
      Entered d (va / 4096) m
        (fun u => (pa + PGSIZE * (u - va / 4096)) % 2 ^ 32 ||| perm ||| PTE_P)
        c s own l s' own' l' := by
  obtain ⟨n, hn⟩ : ∃ n, (va + size - 1) / 4096 = va / 4096 + n :=
    ⟨(va + size - 1) / 4096 - va / 4096, by omega⟩
  have hlast : pgrounddown ((va + size + (2 ^ 32 - 1)) % 2 ^ 32) = 4096 * (va / 4096 + n) := by
    unfold pgrounddown
    dsimp only [PGSIZE]
    omega
  have ha : pgrounddown va = 4096 * (va / 4096) := Nat.mul_comm ..
  -- a page between the two ends has a byte of the range on it
  have hpages : ∀ u, va / 4096 ≤ u → u ≤ va / 4096 + n → ¬ Present (s.pte d u) := by
    intro u h1 h2
    have hbyte := hfree (max va (4096 * u)) (by omega) (by omega)
    rwa [show max va (4096 * u) / 4096 = u by omega] at hbyte
  unfold mappages
  rw [hlast, ha]
  rcases mappagesLoop_enters d hp
    (fun u => (pa + PGSIZE * (u - va / 4096)) % 2 ^ 32 ||| perm ||| PTE_P) (2 ^ 20) n (va / 4096) pa
    (by omega) (by omega) hpa (fun k _ => by rw [Nat.add_sub_cancel_left]) hH hT hpages with
    ⟨c, s', own', l', hrun, h⟩ | ⟨m, c, s', own', l', hm, hrun, h, -⟩
  · exact ⟨n + 1, c, true, s', own', l', s', hrun, fun _ => by omega, by omega, fun _ => rfl, h⟩
  · exact ⟨m, c, false, s', own', l', _, hrun, nofun, by omega, fun _ => rfl, h⟩

/-- Over pages that are not mapped `mappages` returns.  If it succeeds, every address of the range is
found by `walkpgdir` with the entry of its page, and in any case the entries of the other pages are
as they were. -/
theorem mappages_update (s : Mem) (own : Nat → Role) (l : List Nat) (d va size pa perm : Nat)
    (hH : Heap s own l) (hT : Tables s own d) (hsize : 0 < size) (hva : va + size - 1 < 2 ^ 32)
    (hpa : pa < 2 ^ 32) (haligned : pa % PGSIZE = 0) (hp : perm < 2 ^ 32)
    (hfree : ∀ a, va ≤ a → a < va + size → ¬ Present (s.pte d (a / PGSIZE))) :
    ∃ b s', mappages d va size pa perm s = .ok (b, s') ∧
      (b = true → ∀ a, va ≤ a → a < va + size →
        ∃ t, walkpgdir d a false s' = .ok (some (t, ptx a), s') ∧
          s'.entry t (ptx a) =
            (pa + PGSIZE * (a / PGSIZE - va / PGSIZE)) % 2 ^ 32 ||| perm ||| PTE_P ∧
          (perm < PGSIZE →
            PGSIZE * pteAddr (s'.entry t (ptx a)) =
              (pa + PGSIZE * (a / PGSIZE - va / PGSIZE)) % 2 ^ 32 ∧
            pteFlags (s'.entry t (ptx a)) = perm ||| PTE_P)) ∧
      ∀ a < 2 ^ 32, a / PGSIZE < va / PGSIZE ∨ (va + size - 1) / PGSIZE < a / PGSIZE →
        s'.pte d (a / PGSIZE) = s.pte d (a / PGSIZE) := by
  dsimp only [PGSIZE] at *
  obtain ⟨m, c, b, s', own', l', s₁, hrun, hall, hm, hsame, h⟩ :=
    mappages_enters hH hT hsize hva hpa hp hfree
  refine ⟨b, s₁, hrun, fun hb a h1 h2 => ?_, fun a ha hout => ?_⟩
  · have hpte : s₁.pte d (a / 4096) =
        (pa + 4096 * (a / 4096 - va / 4096)) % 2 ^ 32 ||| perm ||| PTE_P := by
      have := hall hb
      rw [hsame, h.pte _ (by omega), if_pos (by omega)]
    have hnz : s₁.pte d (a / 4096) ≠ 0 := by
      rw [hpte]
      exact fun h0 => absurd (Nat.or_eq_zero_iff.1 h0).2 (by decide)
    have hpdx : pdx a = a / 4096 / 1024 := by
      unfold pdx
      omega
    obtain ⟨t, ht⟩ : ∃ t, s₁.table d (pdx a) = some t := by
      rw [hpdx]
      exact Option.ne_none_iff_exists'.1 fun hnone => hnz (Mem.pte_of_none hnone)
    have hentry : s₁.entry t (ptx a) = s₁.pte d (a / 4096) := (Mem.pte_of_table (hpdx ▸ ht)).symm
    refine ⟨t, ?_, hentry.trans hpte, fun hflags => ?_⟩
    · rw [walkpgdir_false, ht]
      rfl
    · obtain ⟨f, hf⟩ : ∃ f, (pa + 4096 * (a / 4096 - va / 4096)) % 2 ^ 32 = 4096 * f :=
        ⟨(pa + 4096 * (a / 4096 - va / 4096)) % 2 ^ 32 / 4096, by omega⟩
      have hmk : s₁.entry t (ptx a) = mkpte f perm := by
        rw [hentry, hpte, hf]
        rfl
      rw [hmk, hf, pteAddr_mkpte hflags, pteFlags_mkpte hflags]
      exact ⟨rfl, rfl⟩
  · rw [hsame, h.pte _ (by omega), if_neg (by omega)]

omit [Layout] in
theorem mappages_update_page :
    ∃ b s', mappages 1024 0x1800 0x1000 0x200000 PTE_W (stock 2) = .ok (b, s') ∧
      s'.pte 1024 3 = (stock 2).pte 1024 3 := by
  let _ : Layout := sampleLayout
  obtain ⟨l, -, hH⟩ := stock_heap 2 (by decide)
  obtain ⟨b, s', hrun, -, hout⟩ := mappages_update (stock 2) (stockOwn 2) l 1024 0x1800 0x1000 0x200000
    PTE_W hH (stock_dir 2).toTables (by decide) (by decide) (by decide) (by decide) (by decide)
    fun a _ _ => by
      rw [stock_pte]
      exact not_present_zero
  exact ⟨b, s', hrun, hout 0x3000 (by decide) (by decide)⟩

omit [Layout] in
theorem mappages_stock (perm : Nat) (hp : perm < 2 ^ 32) :
    ∃ s', mappages 1024 100 1 0 perm (stock 2) = .ok (true, s') ∧ s'.pte 1024 0 = perm ||| PTE_P := by
  let _ : Layout := sampleLayout
  obtain ⟨l, hl, hH⟩ := stock_heap 2 (by decide)
  have hnp : ¬ Present ((stock 2).pte 1024 0) := by
    rw [stock_pte]
    exact not_present_zero
  rcases mappagesLoop_step (w := fun _ => 0 ||| perm ||| PTE_P) hH (stock_dir 2).toTables rfl
    (Nat.or_lt_two_pow (Nat.or_lt_two_pow (by decide) hp) (by decide)) (by decide) hnp 0 1048575 with
    ⟨c, s', own', l', h, -, hrun⟩ | ⟨-, hdry, -⟩
  · refine ⟨s', hrun.trans (if_pos rfl), ?_⟩
    rw [h.pte 0 (by decide), if_pos (by decide), Nat.zero_or]
  · rcases hdry with h | rfl
    · rw [stock_deny] at h
      cases h
    · cases hl

omit [Layout] in
/-- Address 0 lies before the range, on its first page.  A bit of `perm` above the flags moves the
page. -/
theorem mappages_whole_page : (∃ l, @Heap sampleLayout (stock 2) (stockOwn 2) l) ∧
    Tables (stock 2) (stockOwn 2) 1024 ∧
    (∃ s', mappages 1024 100 1 0 0 (stock 2) = .ok (true, s') ∧ (stock 2).pte 1024 (0 / PGSIZE) = 0 ∧
      s'.pte 1024 (0 / PGSIZE) = PTE_P) ∧
    ∃ s', mappages 1024 100 1 0 PGSIZE (stock 2) = .ok (true, s') ∧
      PGSIZE * pteAddr (s'.pte 1024 (100 / PGSIZE)) = PGSIZE := by
  obtain ⟨l, -, hH⟩ := stock_heap 2 (by decide)
  obtain ⟨s₁, hrun₁, h₁⟩ := mappages_stock 0 (by decide)
  obtain ⟨s₂, hrun₂, h₂⟩ := mappages_stock PGSIZE (by decide)
  refine ⟨⟨l, hH⟩, (stock_dir 2).toTables, ⟨s₁, hrun₁, stock_pte 2 0, h₁⟩, s₂, hrun₂, ?_⟩
  show PGSIZE * pteAddr (s₂.pte 1024 0) = PGSIZE
  rw [h₂]
  rfl

/-- `mappages` over a whole range. -/
theorem mappages_range (hH : Heap s own l) (hT : Tables s own d) (hw : k.Whole v n f)
    (hfree : ∀ u, k.Covers u → ¬ Present (s.pte d u)) :
    (∃ c s' own' l', mappages d k.virt k.size k.physStart k.perm s = .ok (true, s') ∧
      Mapped d v (n + 1) f k.perm c s own l s' own' l') ∨
    ∃ m c s' own' l', m ≤ n ∧
      mappages d k.virt k.size k.physStart k.perm s = .ok (false, s'.pass) ∧
      Mapped d v m f k.perm c s own l s' own' l' ∧ s'.Dry l' ∧
      s'.table d ((v + m) / 1024) = none := by
  have hv := hw.virt_lt
  have hlast : pgrounddown ((4096 * v + 4096 * (n + 1) + (2 ^ 32 - 1)) % 2 ^ 32) =
      4096 * (v + n) := by
    unfold pgrounddown
    dsimp only [PGSIZE]
    omega
  have ha : pgrounddown (4096 * v) = 4096 * v := by
    unfold pgrounddown
    dsimp only [PGSIZE]
    omega
  unfold mappages
  rw [hw.virt, hw.size, hw.phys, hlast, ha]
  exact mappagesLoop_spec d hw.perm n (2 ^ 20) (by omega) hv hw.phys_lt hH hT fun u h1 h2 =>
    hfree u (hw.covers.2 (by omega))

/-- The ranges are all mapped, or there is no page for a table of one of them. -/
theorem setupkvmLoop_spec (d : Nat) (ks : List Kmap) : ∀ {s : Mem} {own : Nat → Role} {l : List Nat},
    (∀ k ∈ ks, ∃ v n f, k.Whole v n f) →
    (ks.Pairwise fun k k' => ∀ u, k.Covers u → ¬ k'.Covers u) → Heap s own l → Tables s own d →
    (∀ k ∈ ks, ∀ u, k.Covers u → ¬ Present (s.pte d u)) →
    (∃ c s' own' l', setupkvmLoop d ks s = .ok (some d, s') ∧ Laid d ks c s own l s' own' l' ∧
      ∀ u < 2 ^ 20, ∀ k, rangeOf ks u = some k → s'.pte d u = k.pte u) ∨
    ∃ c s' own' l', setupkvmLoop d ks s = .ok (none, s'.pass) ∧ Laid d ks c s own l s' own' l' ∧
      s'.Dry l' ∧ ∃ k ∈ ks, ∃ u, k.Covers u ∧ s'.table d (u / 1024) = none := by
  induction ks with
  | nil =>
    intro s own l _ _ hH hT _
    refine .inl ⟨0, s, own, l, rfl, ⟨hH, hT, fun _ _ _ => rfl, fun _ hi => .inl hi, .refl .., .refl ..,
      (Nat.add_zero _).symm⟩, nofun⟩
  | cons k ks ih =>
    intro s own l hwhole hpair hH hT hfree
    obtain ⟨v, n, f, hw⟩ := hwhole k mem_cons_self
    obtain ⟨hdisj, hpair⟩ := pairwise_cons.1 hpair
    rcases mappages_range hH hT hw (hfree k mem_cons_self) with
      ⟨c, s₁, own₁, l₁, hrun, hm⟩ | ⟨m, c, s₁, own₁, l₁, hmn, hrun, hm, hdry, hnone⟩
    · have hlaid : Laid d (k :: ks) c s own l s₁ own₁ l₁ := hm.laid hw (Nat.le_refl _)
      have hstep : setupkvmLoop d (k :: ks) s = setupkvmLoop d ks s₁ := seq_ok hrun
      have hfree' : ∀ k' ∈ ks, ∀ u, k'.Covers u → ¬ Present (s₁.pte d u) := by
        intro k' hk' u hu
        have hnot : ¬ k.Covers u := fun hc => hdisj k' hk' u hc hu
        obtain ⟨v', n', f', hw'⟩ := hwhole k' (mem_cons_of_mem k hk')
        have hlt := hw'.covers.1 hu
        have := hw'.virt_lt
        rw [hm.pte u (by omega), if_neg (mt hw.covers.2 hnot)]
        exact hfree k' (mem_cons_of_mem k hk') u hu
      rcases ih (fun k' hk' => hwhole k' (mem_cons_of_mem k hk')) hpair hm.heap hm.tabs hfree' with
        ⟨c', s', own', l', hrest, h', hpte⟩ | ⟨c', s', own', l', hrest, h', hdry, k', hk', hu⟩
      · refine .inl ⟨c + c', s', own', l', hstep.trans hrest, hlaid.trans h', fun u hu k' hk' => ?_⟩
        by_cases hcov : k.Covers u
        · unfold rangeOf at hk'
          rw [find?_cons_of_pos (by simpa using hcov)] at hk'
          cases hk'
          rw [h'.pte u hu fun k' hk' => hdisj k' hk' u hcov, hm.pte u hu, if_pos (hw.covers.1 hcov),
            hw.pte (hw.covers.1 hcov).1]
        · unfold rangeOf at hk'
          rw [find?_cons_of_neg (by simpa using hcov)] at hk'
          exact hpte u hu k' hk'
      · exact .inr ⟨c + c', s', own', l', hstep.trans hrest, hlaid.trans h', hdry, k',
          mem_cons_of_mem k hk', hu⟩
    · refine .inr ⟨c, s₁, own₁, l₁, ?_, hm.laid hw (by omega), hdry, k, mem_cons_self, v + m,
        hw.covers.2 (by omega), hnone⟩
      exact seq_ok hrun

/-! ## setupkvm -/

/-- No role speaks of a directory that is none. -/
def Rooted (own : Nat → Role) : Prop :=
  ∀ d, own d ≠ .dir → ∀ f, (∀ i, own f ≠ .table d i) ∧ ∀ v, own f ≠ .user d v

/-- The new directory, before anything is mapped. -/
def Mem.emptyDir (s : Mem) (d : Nat) : Mem := (s.popped d).memset d 0

/-- An empty directory has no entries. -/
theorem emptyDir_spec (hH : Heap s own (d :: l)) (hR : Rooted own) :
    Heap (s.emptyDir d) (update own d .dir) l ∧
    Tables (s.emptyDir d) (update own d .dir) d ∧
    (∀ i, (s.emptyDir d).table d i = none) ∧ ∀ u, (s.emptyDir d).pte d u = 0 := by
  have hfree : own d = .free := (hH.free d).2 mem_cons_self
  have hroot := hR d (by rw [hfree]; nofun)
  have hne : ∀ f, f ≠ d → update own d .dir f = own f := fun f hf =>
    update_of_ne hf ..
  have htab : ∀ i, (s.emptyDir d).table d i = none := by
    intro i
    have hentry : (s.emptyDir d).entry d i = 0 := Mem.entry_memset_zero _ _ _
    unfold Mem.table
    rw [hentry, if_neg not_present_zero]
  refine ⟨?_, ⟨update_self .., fun t i => ?_⟩, htab, fun u => Mem.pte_of_none (htab _)⟩
  · have hheld : update own d .held d = .held := update_self ..
    have hH₁ := (hH.popped.setPage (by rw [hheld]; nofun) fun _ => 0).assign (r := .dir)
      (by rw [hheld]; nofun) (by rw [hheld]; nofun) nofun
    rwa [update_idem] at hH₁
  · rw [htab]
    refine ⟨fun ht => ?_, fun ht => nomatch ht.2⟩
    by_cases he : t = d
    · rw [he, update_self] at ht
      cases ht
    · rw [hne t he] at ht
      exact absurd ht ((hroot t).1 i)

/-- A directory has been begun: it has `c` tables, all of them for the kernel part. -/
structure Begun [Layout] (d c : Nat) (s : Mem) (own : Nat → Role) (l : List Nat) (s' : Mem)
    (own' : Nat → Role) (l' : List Nat) : Prop where
  heap : Heap s' own' l'
  dir : Dir s' own' d
  was : own d = .free
  low : ∀ i < 512, s'.table d i = none
  role : ∀ f, own f ≠ .free → own' f = own f
  page : ∀ f, own f ≠ .free → s'.page f = s.page f
  fresh : ∀ f, own f = .free → own' f = .free ∨ f = d ∨ ∃ i, own' f = .table d i
  took : Took (1 + c) s l s' l'

theorem Laid.begun (hH : Heap s own (d :: l)) (hR : Rooted own) (hd : s.deny 0 = false)
    (h : Laid d kmap c (s.emptyDir d) (update own d .dir) l s' own' l') :
    Begun d c s own (d :: l) s' own' l' := by
  have hfree : own d = .free := (hH.free d).2 mem_cons_self
  have hroot := hR d (by rw [hfree]; nofun)
  obtain ⟨hH₀, hT₀, htab₀, hpte₀⟩ := emptyDir_spec hH hR
  have hne : ∀ f, own f ≠ .free → f ≠ d := by
    rintro f hf rfl
    exact hf hfree
  have hupd : ∀ f, f ≠ d → update own d .dir f = own f := fun f hf =>
    update_of_ne hf ..
  have hrole : ∀ f, own f ≠ .free → own' f = own f := by
    intro f hf
    rw [h.maps.own_eq (by rwa [hupd f (hne f hf)]), hupd f (hne f hf)]
  have hlow : ∀ i < 512, s'.table d i = none := by
    intro i hi
    by_contra hs
    rcases h.range i hs with h1 | ⟨k, hk, u, hu, rfl⟩
    · exact h1 (htab₀ i)
    · have := (kmap_covers u).1 ⟨k, hk, hu⟩
      omega
  refine ⟨h.heap, ⟨h.tabs, fun f v => ⟨fun hf => ?_, fun hf => ?_⟩⟩, hfree, hlow, hrole,
    fun f hf => ?_, fun f hf => ?_, ?_⟩
  · rcases h.maps.own f with ho | ⟨-, i, hi⟩
    · rw [ho] at hf
      by_cases he : f = d
      · rw [he, update_self] at hf
        cases hf
      · rw [hupd f he] at hf
        exact absurd hf ((hroot f).2 v)
    · rw [hi] at hf
      cases hf
  · obtain ⟨hv, hp, -⟩ := hf
    rw [Mem.pte_of_none (hlow _ (by omega))] at hp
    exact absurd hp not_present_zero
  · have hfd := hne f hf
    have hu := hupd f hfd
    rw [h.maps.page f (by rwa [hu]) hfd (by rw [hu]; exact (hroot f).1)]
    exact Mem.setPage_of_ne _ _ _ hfd
  · by_cases he : f = d
    · exact .inr (.inl he)
    · rcases h.maps.own f with ho | ⟨-, hi⟩
      · rw [hupd f he, hf] at ho
        exact .inl ho
      · exact .inr (.inr hi)
  · have htook : Took 1 s (d :: l) (s.emptyDir d) l := (Took.popped hd).of_deny rfl
    exact htook.trans h.took

/-- The directory indices of the kernel part. -/
def kernelIdx : Finset Nat := (Finset.range 1024).filter fun i => 512 ≤ i ∧ i < 568 ∨ 1016 ≤ i

omit [Layout] in
theorem card_kernelIdx : kernelIdx.card = 64 := by decide +kernel

theorem mem_kernelIdx (i : Nat) : i ∈ kernelIdx ↔ ∃ k ∈ kmap, ∃ u, k.Covers u ∧ u / 1024 = i := by
  unfold kernelIdx
  rw [Finset.mem_filter, Finset.mem_range]
  constructor
  · rintro ⟨h1, h2⟩
    obtain ⟨k, hk, hu⟩ := (kmap_covers (1024 * i)).2 (by omega)
    exact ⟨k, hk, 1024 * i, hu, by omega⟩
  · rintro ⟨k, hk, u, hu, rfl⟩
    have := (kmap_covers u).1 ⟨k, hk, hu⟩
    omega

/-- The tables are among those of the kernel part. -/
theorem Laid.tables_subset (h : Laid d kmap c s own l s' own' l') (hnone : ∀ i, s.table d i = none) :
    ((Finset.range 1024).filter fun i => s'.table d i ≠ none) ⊆ kernelIdx := by
  intro i hi
  rw [mem_kernelIdx]
  exact (h.range i (Finset.mem_filter.1 hi).2).resolve_left fun h1 => h1 (hnone i)

theorem Laid.ntab_eq (h : Laid d kmap c s own l s' own' l') (hnone : ∀ i, s.table d i = none) :
    ((Finset.range 1024).filter fun i => s'.table d i ≠ none).card = c := by
  have h0 : s.ntab d = 0 := by
    unfold Mem.ntab
    rw [Finset.card_eq_zero, Finset.filter_eq_empty_iff]
    exact fun i _ hi => hi (hnone i)
  have := h.ntab
  rw [h0, Nat.zero_add] at this
  exact this

/-- `setupkvm` gets no directory; or no page for one of the 64 tables, and loses the directory; or it
makes a directory that has the kernel part and nothing else. -/
theorem setupkvm_spec (hH : Heap s own l) (hR : Rooted own) :
    (s.Dry l ∧ setupkvm s = .ok (none, s.pass)) ∨
    (∃ d c s' own' l', c < 64 ∧ setupkvm s = .ok (none, s'.pass) ∧ s'.Dry l' ∧
      Begun d c s own l s' own' l') ∨
    ∃ d s' own' l', setupkvm s = .ok (some d, s') ∧ Begun d 64 s own l s' own' l' ∧
      ∀ u < 2 ^ 20, s'.pte d u = kpte u := by
  rcases kalloc_cases hH with ⟨hdry, hk⟩ | ⟨d, l₁, rfl, hd, hk, -⟩
  · exact .inl ⟨hdry, seq_ok hk⟩
  · right
    have hrun : setupkvm s = setupkvmLoop d kmap (s.emptyDir d) := by
      unfold setupkvm
      rw [seq_ok hk]
      have hlow : ¬ PHYSTOP + KERNBASE > DEVSPACE := by decide
      simp only [if_neg hlow]
      rfl
    obtain ⟨hH₀, hT₀, htab₀, hpte₀⟩ := emptyDir_spec hH hR
    rcases setupkvmLoop_spec d kmap kmap_all_whole kmap_pairwise hH₀ hT₀ fun k _ u _ => by
        rw [hpte₀]
        exact not_present_zero with
      ⟨c, s', own', l', hloop, h, hpte⟩ | ⟨c, s', own', l', hloop, h, hdry, k, hkm, u, hu, hnone⟩
    · right
      have hk' : ∀ u < 2 ^ 20, s'.pte d u = kpte u := by
        intro u hu
        unfold kpte
        split
        · next k hr => exact hpte u hu k hr
        · next hr =>
          rw [h.pte u hu fun k hk hc => ?_, hpte₀]
          have := find?_eq_none.1 hr k hk
          exact this (by simpa using hc)
      have hall : ((Finset.range 1024).filter fun i => s'.table d i ≠ none) = kernelIdx := by
        refine (h.tables_subset htab₀).antisymm fun i hi => ?_
        obtain ⟨k, hkm, u, hu, rfl⟩ := (mem_kernelIdx i).1 hi
        have hlt := (kmap_covers u).1 ⟨k, hkm, hu⟩
        have hpres : Present (s'.pte d u) := by
          rw [hk' u (by omega)]
          rcases kpte_cases u with ⟨-, hno⟩ | ⟨k', -, -, he, hp, -⟩
          · exact absurd hu (hno k hkm)
          · rw [he]
            exact present_mkpte hp
        obtain ⟨t, ht⟩ := Mem.exists_table hpres
        rw [Finset.mem_filter, Finset.mem_range, ht]
        exact ⟨by omega, nofun⟩
      have hc : c = 64 := by
        rw [← h.ntab_eq htab₀, hall, card_kernelIdx]
      rw [hc] at h
      exact ⟨d, s', own', l', hrun.trans hloop, h.begun hH hR hd, hk'⟩
    · left
      have hc : c < 64 := by
        rw [← h.ntab_eq htab₀, ← card_kernelIdx]
        refine Finset.card_lt_card ((h.tables_subset htab₀).ssubset_of_mem_notMem
          ((mem_kernelIdx (u / 1024)).2 ⟨k, hkm, u, hu, rfl⟩) fun hm => ?_)
        exact (Finset.mem_filter.1 hm).2 hnone
      exact ⟨d, c, s', own', l', hc, hrun.trans hloop, hdry, h.begun hH hR hd⟩

/-- With 65 pages there is a directory. -/
theorem setupkvm_enough (hH : Heap s own l) (hR : Rooted own) (hdeny : ∀ n, s.deny n = false)
    (hmany : 65 ≤ l.length) : ∃ d s' own' l', setupkvm s = .ok (some d, s') ∧
      Begun d 64 s own l s' own' l' ∧ ∀ u < 2 ^ 20, s'.pte d u = kpte u := by
  rcases setupkvm_spec hH hR with ⟨hdry, -⟩ | ⟨d, c, s', own', l', hc, -, hdry, h⟩ | h
  · exfalso
    rcases hdry with h0 | rfl
    · exact nomatch (hdeny 0).symm.trans h0
    · exact absurd hmany (by decide)
  · exfalso
    rcases hdry with h0 | h0
    · rw [h.took.deny, hdeny] at h0
      cases h0
    · have hlen := congrArg List.length h0
      rw [h.took.list, length_drop, length_nil] at hlen
      omega
  · exact h

end

end Xv6.Vm
