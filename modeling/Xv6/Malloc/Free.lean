import Xv6.Malloc.Blocks

/-!
# `free`

The loop stops at the block `c` behind which `bp` belongs: the last one below it.  Then `bp` is
joined to the block that follows, if they touch, and to `c`, if they touch.  The headers that are
stored into are those of `bp` and `c`.
-/

namespace Xv6.Malloc

open List

variable {base : Nat} {h : Heap} {m : Mem} {F L : List Block} {b c d : Block} {bp p : Nat}

/-! ## The loop -/

/-- With more than `n` steps of fuel the loop gets from `p` to the last block of `l` below `bp`. -/
def Ends (m : Mem) (bp : Nat) (l : List Nat) (n p : Nat) : Prop :=
  ∃ k₁ q k₂, l = k₁ ++ q :: k₂ ∧ q < bp ∧ (∀ x ∈ k₂, bp < x) ∧
    ∀ fuel, n < fuel → freeLoop m bp fuel p = some q

namespace Ends

variable {l l₁ l₂ : List Nat} {n n' : Nat}

theorem mono (h : Ends m bp l n p) (hn : n ≤ n') : Ends m bp l n' p := by
  obtain ⟨k₁, q, k₂, hk, hq, habove, hrun⟩ := h
  exact ⟨k₁, q, k₂, hk, hq, habove, fun fuel hf => hrun fuel (hn.trans_lt hf)⟩

theorem here (hl : l = l₁ ++ p :: l₂) (hp : p < bp) (habove : ∀ x ∈ l₂, bp < x)
    (hstop : bp < m.ptr p ∨ m.ptr p ≤ p) : Ends m bp l n p := by
  refine ⟨l₁, p, l₂, hl, hp, habove, fun fuel hf => ?_⟩
  obtain ⟨fuel, rfl⟩ : ∃ k, fuel = k + 1 := ⟨fuel - 1, by omega⟩
  rw [freeLoop]
  by_cases hlt : bp < m.ptr p
  · rw [if_pos ⟨hp, hlt⟩]
  · rw [if_neg fun h => hlt h.2, if_pos ⟨hstop.resolve_left hlt, .inl hp⟩]

theorem step {x : Nat} (hx : m.ptr p = x) (h : Ends m bp l n x) (hno : ¬ (p < bp ∧ bp < x))
    (hno' : ¬ (x ≤ p ∧ (p < bp ∨ bp < x))) : Ends m bp l (n + 1) p := by
  subst hx
  obtain ⟨k₁, q, k₂, hk, hq, habove, hrun⟩ := h
  refine ⟨k₁, q, k₂, hk, hq, habove, fun fuel hf => ?_⟩
  obtain ⟨fuel, rfl⟩ : ∃ k, fuel = k + 1 := ⟨fuel - 1, by omega⟩
  rw [freeLoop, if_neg hno, if_neg hno']
  exact hrun fuel (by omega)

end Ends

section
variable {a : Nat} {l : List Nat} (hc : Circle m.ptr (a :: l)) (hs : (a :: l).Pairwise (· < ·))
  (ha : a < bp) (hbp : bp ∉ a :: l)
include hc hs

theorem next_of_split {l₁ l₂ : List Nat} {x : Nat} (hl : a :: l = l₁ ++ p :: x :: l₂) :
    m.ptr p = x ∧ p < x ∧ (x :: l₂).Pairwise (· < ·) := by
  have hsorted : (p :: x :: l₂).Pairwise (· < ·) := (pairwise_append.1 (hl ▸ hs)).2.1
  exact ⟨(Path.cons_iff.1 (hc.path_tail hl)).1, rel_of_pairwise_cons hsorted mem_cons_self,
    hsorted.of_cons⟩

include ha hbp

/-- From a block below `bp` the loop goes up to the last one. -/
theorem freeLoop_below (l₂ : List Nat) : ∀ (l₁ : List Nat) (p : Nat), a :: l = l₁ ++ p :: l₂ →
    p < bp → Ends m bp (a :: l) l₂.length p := by
  induction l₂ with
  | nil =>
    intro l₁ p hl hp
    have hle : a ≤ p := by
      rcases mem_cons.1 (show p ∈ a :: l by rw [hl]; simp) with rfl | hmem
      · exact le_rfl
      · exact (rel_of_pairwise_cons hs hmem).le
    exact .here hl hp (by simp) (.inr (Path.nil_iff.1 (hc.path_tail hl) ▸ hle))
  | cons x l₂ ih =>
    intro l₁ p hl hp
    obtain ⟨hnext, hpx, hsorted⟩ := next_of_split hc hs hl
    by_cases hx : bp < x
    · refine .here hl hp (forall_mem_cons.2 ⟨hx, fun y hy => ?_⟩) (.inl (hnext ▸ hx))
      exact hx.trans (rel_of_pairwise_cons hsorted hy)
    · have hne : x ≠ bp := by
        rintro rfl
        exact hbp (by rw [hl]; simp)
      exact .step hnext (ih (l₁ ++ [p]) x (by rw [hl]; simp) (by omega)) (by omega) (by omega)

/-- From a block above `bp` it goes on to `base`, and up from there. -/
theorem freeLoop_above (l₂ : List Nat) : ∀ (l₁ : List Nat) (p : Nat), a :: l = l₁ ++ p :: l₂ →
    bp < p → Ends m bp (a :: l) (l.length + 1 + l₂.length) p := by
  induction l₂ with
  | nil =>
    intro l₁ p hl hp
    exact .step (Path.nil_iff.1 (hc.path_tail hl)) (freeLoop_below hc hs ha hbp l [] a rfl ha)
      (by omega) (by omega)
  | cons x l₂ ih =>
    intro l₁ p hl hp
    obtain ⟨hnext, hpx, -⟩ := next_of_split hc hs hl
    exact .step hnext (ih (l₁ ++ [p]) x (by rw [hl]; simp) (by omega)) (by omega) (by omega)

theorem freeLoop_ends (hp : p ∈ a :: l) : Ends m bp (a :: l) (2 * l.length + 2) p := by
  obtain ⟨l₁, l₂, hl⟩ := append_of_mem hp
  have hlen : l₂.length ≤ l.length := by
    have := congrArg List.length hl
    simp only [length_cons, length_append] at this
    omega
  rcases Nat.lt_trichotomy p bp with hlt | rfl | hgt
  · exact (freeLoop_below hc hs ha hbp l₂ l₁ p hl hlt).mono (by omega)
  · exact absurd hp hbp
  · exact (freeLoop_above hc hs ha hbp l₂ l₁ p hl hgt).mono (by omega)

end

/-! ## The place of a block among the free ones -/

theorem Cells.addr_sorted (hi : Cells base h F L) :
    (base :: F.map Block.addr).Pairwise (· < ·) := by
  have hmap : (nodes base F).map Block.addr = base :: F.map Block.addr := rfl
  rw [← hmap, pairwise_map]
  exact hi.nodes_sorted.imp fun hlt => (Nat.le_add_right ..).trans_lt hlt

/-- Some of the blocks that are handed out. -/
theorem Inv.sub {L' : List Block} (hi : Inv base h F L) (hL : L'.Subperm L) :
    Inv base h F L' := by
  have hmem : ∀ b ∈ F ++ L', b ∈ F ++ L := fun b hb => by
    rcases mem_append.1 hb with hb | hb
    · exact mem_append_left _ hb
    · exact mem_append_right _ (hL.subset hb)
  have hl := hi.laid.subperm ((subperm_append_left (nodes base F)).2 hL)
  exact ⟨hl.cells hi.base_pos hi.top_lt (fun b hb => hi.pos b (hmem b hb))
    (fun b hb => hi.above (hmem b (mem_append_right F hb))) hi.nodes_sorted, hi.links, hi.freep⟩

theorem Inv.perm {L' : List Block} (hi : Inv base h F L) (hL : L.Perm L') : Inv base h F L' :=
  hi.sub hL.symm.subperm

/-- A free block as it should be, beside the blocks `L`. -/
structure Fine (base : Nat) (h : Heap) (L : List Block) (d : Block) : Prop where
  pos : 0 < d.size
  low : base + HSIZE ≤ d.addr
  high : d.fin ≤ h.top
  size : h.mem.size d.addr = d.size
  apart : ∀ e ∈ L, e.Apart d

theorem Cells.fine (hi : Cells base h F L) (hd : d ∈ F) : Fine base h L d :=
  have hm := mem_append_left L hd
  ⟨hi.pos d hm, hi.low d hm, hi.high d hm, hi.size d hm, fun e he => hi.live e he d hd⟩

theorem mem_of_nodes {F' B : List Block} (hB : nodes base F' = B) (hd : d ∈ B)
    (hlow : base + HSIZE ≤ d.addr) : d ∈ F' := by
  subst hB
  rcases mem_cons.1 hd with rfl | hd
  · dsimp only [HSIZE] at hlow
    omega
  · exact hd

/-- `b` is to be put behind `c`. -/
structure Between (base : Nat) (h : Heap) (F L K₁ K₂ : List Block) (b c : Block) : Prop where
  inv : Inv base h F (b :: L)
  split : nodes base F = K₁ ++ c :: K₂
  below : c.addr < b.addr
  above : ∀ d ∈ K₂, b.addr < d.addr

/-- What `joinUpper` leaves: `b'` is the block, joined to the first of `K₂` if they touch, and
leads to the rest of them. -/
structure Upper (base : Nat) (h : Heap) (L K₂ : List Block) (b : Block) (m : Mem) (b' : Block)
    (K : List Block) : Prop where
  addr : b'.addr = b.addr
  le : b.size ≤ b'.size
  suffix : K <:+ K₂
  gap : ∀ d ∈ K, b'.fin < d.addr
  high : b'.fin ≤ h.top
  apart : ∀ e ∈ L, e.Apart b'
  size : m.size b.addr = b'.size
  path : Path m.ptr b.addr (K.map Block.addr) base
  far : ∀ a, Far b.addr a → m.ptr a = h.mem.ptr a ∧ m.size a = h.mem.size a

namespace Between

variable {K₁ K₂ K : List Block} {b' : Block} (hb : Between base h F L K₁ K₂ b c)
include hb

theorem laid : Laid h (b :: c :: (K₂ ++ (K₁ ++ L))) := by
  have hl := hb.inv.laid
  rw [hb.split] at hl
  refine hl.perm (perm_middle.trans (Perm.cons b ?_))
  rw [← append_assoc, ← cons_append]
  exact perm_append_comm.append_right L

theorem far (hd : d ∈ K₂ ++ (K₁ ++ L)) : Far b.addr d.addr ∧ Far c.addr d.addr :=
  ⟨hb.laid.far (mem_cons_of_mem c hd), hb.laid.tail.far hd⟩

theorem sorted : (K₁ ++ c :: K₂).Pairwise fun c d => c.fin < d.addr :=
  hb.split ▸ hb.inv.nodes_sorted

omit hb in
theorem mem_live : b ∈ F ++ b :: L := mem_append_right F mem_cons_self

theorem before : c.Before b := by
  rcases rel_of_pairwise_cons hb.laid.beside mem_cons_self with hlt | hlt
  · exact absurd ((Nat.le_add_right ..).trans hlt.1) (Nat.not_le.2 hb.below)
  · exact hlt

theorem behind (hd : d ∈ K₂) : b.Before d := by
  rcases rel_of_pairwise_cons hb.laid.beside (mem_cons_of_mem c (mem_append_left _ hd)) with hlt | hlt
  · exact hlt
  · exact absurd ((Nat.le_add_right ..).trans hlt.1) (Nat.not_le.2 (hb.above d hd))

theorem addr_split :
    base :: F.map Block.addr = K₁.map Block.addr ++ c.addr :: K₂.map Block.addr := by
  have := congrArg (List.map Block.addr) hb.split
  simpa using this

theorem path : Path h.mem.ptr c.addr (K₂.map Block.addr) base :=
  hb.inv.links.path_tail hb.addr_split

/-! ## The block behind -/

theorem upper_link (hgap : ∀ d ∈ K₂, b.fin < d.addr) :
    Upper base h L K₂ b (h.mem.setPtr b.addr (h.mem.ptr c.addr)) b K₂ := by
  refine ⟨rfl, le_rfl, suffix_rfl, hgap, hb.inv.high b mem_live,
    fun e he => ((pairwise_cons.1 hb.inv.apart).1 e he).symm, ?_, ?_, fun a ha => ⟨?_, ?_⟩⟩
  · rw [Mem.size_setPtr _ _ (.inl rfl)]
    exact hb.inv.size b mem_live
  · refine hb.path.congr (Mem.ptr_setPtr_self h.mem b.addr (Mem.ptr_lt ..)) fun x hx => ?_
    obtain ⟨d, hd, rfl⟩ := mem_map.1 hx
    exact Mem.ptr_setPtr_far _ _ (hb.far (by simp [hd])).1
  · exact Mem.ptr_setPtr_far _ _ ha
  · exact Mem.size_setPtr _ _ (.inr ha)

theorem upper_join {x : Block} (hK : K₂ = x :: K) (he : b.fin = x.addr) :
    Upper base h L K₂ b
      ((h.mem.setSize b.addr (b.size + x.size)).setPtr b.addr (h.mem.ptr x.addr)) (b.join x) K := by
  subst hK
  have hl : Laid h (b :: x :: c :: (K ++ (K₁ ++ L))) := hb.laid.perm (.cons b (.swap ..))
  generalize hm : (h.mem.setSize b.addr (b.size + x.size)).setPtr b.addr (h.mem.ptr x.addr) = m'
  have hjoin : Laid { h with mem := m' } (b.join x :: c :: (K ++ (K₁ ++ L))) :=
    hl.join he hb.inv.top_lt rfl hm.symm
  have hsorted := (pairwise_append.1 hb.sorted).2.1.of_cons
  refine ⟨rfl, Nat.le_add_right .., suffix_cons x K, fun d hd => ?_,
    (hjoin.high _ mem_cons_self).2, fun e he' => ?_, hjoin.size _ mem_cons_self, ?_,
    fun a ha => ⟨?_, ?_⟩⟩
  · rw [Block.join_fin he]
    exact rel_of_pairwise_cons hsorted hd
  · exact (rel_of_pairwise_cons hjoin.beside (by simp [he'])).apart.symm
  · rw [← hm]
    refine (Path.cons_iff.1 hb.path).2.congr
      (Mem.ptr_setPtr_self _ b.addr (Mem.ptr_lt h.mem x.addr)) fun y hy => ?_
    obtain ⟨d, hd, rfl⟩ := mem_map.1 hy
    have hf := (hb.far (d := d) (by simp [hd])).1
    rw [Mem.ptr_setPtr_far _ _ hf, Mem.ptr_setSize _ _ (.inr hf)]
  · rw [← hm, Mem.ptr_setPtr_far _ _ ha, Mem.ptr_setSize _ _ (.inr ha)]
  · rw [← hm, Mem.size_setPtr _ _ (.inr ha), Mem.size_setSize_far _ _ ha]

theorem joinUpper : ∃ b' K, Upper base h L K₂ b (joinUpper h.mem b.addr c.addr) b' K := by
  have hadv : advance b.addr b.size = b.fin :=
    Nat.mod_eq_of_lt ((hb.inv.high b mem_live).trans_lt hb.inv.top_lt)
  have hpath := hb.path
  unfold Malloc.joinUpper
  rw [hb.inv.size b mem_live, hadv]
  cases K₂ with
  | nil =>
    have hne : b.fin ≠ h.mem.ptr c.addr := by
      rw [Path.nil_iff.1 hpath]
      exact ((hb.inv.above mem_live).trans_le (Nat.le_add_right ..)).ne'
    rw [if_neg hne]
    exact ⟨b, [], hb.upper_link (by simp)⟩
  | cons x K =>
    have hx : h.mem.ptr c.addr = x.addr := (Path.cons_iff.1 hpath).1
    by_cases he : b.fin = x.addr
    · have hptr : (h.mem.setSize b.addr (b.size + x.size)).ptr
          ((h.mem.setSize b.addr (b.size + x.size)).ptr c.addr) = h.mem.ptr x.addr := by
        rw [Mem.ptr_setSize _ _ (.inr (hb.laid.far mem_cons_self)), hx,
          Mem.ptr_setSize _ _ (.inr (hb.far (d := x) (by simp)).1)]
      refine ⟨b.join x, K, ?_⟩
      rw [if_pos (he.trans hx.symm), hx, hb.laid.size x (by simp)]
      dsimp only
      rw [hptr]
      exact hb.upper_join rfl he
    · rw [if_neg fun h => he (h.trans hx)]
      have hlt : b.fin < x.addr := lt_of_le_of_ne (hb.behind mem_cons_self).2 he
      refine ⟨b, x :: K, hb.upper_link fun d hd => ?_⟩
      rcases mem_cons.1 hd with rfl | hd
      · exact hlt
      · have hxd := rel_of_pairwise_cons (pairwise_append.1 hb.sorted).2.1.of_cons hd
        exact hlt.trans ((Nat.le_add_right ..).trans_lt hxd)

/-! ## The block before -/

/-- The circle with `c₀ :: T` in place of `c` and what is behind it. -/
theorem rebuild {h' : Heap} {c₀ : Block} {T : List Block} (htop : h'.top = h.top)
    (hl : Laid h' (c₀ :: (T ++ (K₁ ++ L)))) (haddr : c₀.addr = c.addr)
    (hbase : c.addr = base → c₀.size = 0) (hpos : ∀ d ∈ c₀ :: T, base < d.addr → 0 < d.size)
    (hsorted : (c₀ :: T).Pairwise fun c d => c.fin < d.addr)
    (hkeep : ∀ d ∈ K₁, h'.mem.ptr d.addr = h.mem.ptr d.addr)
    (hpath : Path h'.mem.ptr c.addr (T.map Block.addr) base) (hfreep : h'.freep = c.addr) :
    ∃ F', nodes base F' = K₁ ++ c₀ :: T ∧ Inv base h' F' L := by
  have hsplit := hb.split
  have hhead : ∃ F', nodes base F' = K₁ ++ c₀ :: T := by
    cases K₁ with
    | nil =>
      cases hsplit
      have hc₀ : c₀ = ⟨base, 0⟩ := by
        cases c₀
        exact Block.mk.injEq .. ▸ ⟨haddr, hbase rfl⟩
      exact ⟨T, by rw [hc₀]; rfl⟩
    | cons x K₁ =>
      cases hsplit
      exact ⟨K₁ ++ c₀ :: T, rfl⟩
  obtain ⟨F', hF'⟩ := hhead
  have hnodes : (nodes base F').Pairwise fun c d => c.fin < d.addr := by
    obtain ⟨hK₁, -, hlow⟩ := pairwise_append.1 hb.sorted
    rw [hF']
    refine pairwise_append.2 ⟨hK₁, hsorted, fun x hx y hy => ?_⟩
    have hxc := hlow x hx c mem_cons_self
    rcases mem_cons.1 hy with rfl | hy
    · rwa [haddr]
    · exact (haddr ▸ hxc).trans ((Nat.le_add_right ..).trans_lt (rel_of_pairwise_cons hsorted hy))
  have hperm : (c₀ :: (T ++ (K₁ ++ L))).Perm (nodes base F' ++ L) := by
    rw [hF', ← append_assoc, ← cons_append, ← cons_append]
    exact perm_append_comm.append_right L
  refine ⟨F', hF', (hl.perm hperm).cells hb.inv.base_pos (htop ▸ hb.inv.top_lt) (fun d hd => ?_)
    (fun d hd => ?_) hnodes, ?_, ?_⟩
  · rcases mem_append.1 hd with hd | hd
    · have hlow := rel_of_pairwise_cons hnodes hd
      rcases mem_append.1 (hF' ▸ mem_cons_of_mem _ hd : d ∈ K₁ ++ c₀ :: T) with hd | hd
      · have hnode : d ∈ nodes base F := hsplit ▸ mem_append_left _ hd
        rcases mem_cons.1 hnode with rfl | hd
        · exact absurd hlow (Nat.lt_irrefl base)
        · exact hb.inv.pos d (mem_append_left _ hd)
      · exact hpos d hd hlow
    · exact hb.inv.pos d (by simp [hd])
  · exact hb.inv.above (by simp [hd])
  · show Circle h'.mem.ptr ((nodes base F').map Block.addr)
    rw [hF', map_append, map_cons, haddr]
    refine hb.inv.links.relink hb.addr_split (fun x hx => ?_) hpath
    obtain ⟨d, hd, rfl⟩ := mem_map.1 hx
    exact hkeep d hd
  · show h'.freep ∈ (nodes base F').map Block.addr
    rw [hF', hfreep, ← haddr]
    exact mem_map_of_mem (by simp)

section
variable (hu : Upper base h L K₂ b m b' K)
include hu

theorem upper_laid : Laid { h with mem := m } (c :: b' :: (K ++ (K₁ ++ L))) := by
  have hsub : (c :: (K ++ (K₁ ++ L))).Sublist (c :: (K₂ ++ (K₁ ++ L))) :=
    (hu.suffix.sublist.append_right _).cons_cons c
  have hold : Laid { h with mem := m } (c :: (K ++ (K₁ ++ L))) :=
    (hb.laid.tail.subperm hsub.subperm).congr rfl fun d hd =>
      (hu.far _ (hb.laid.far (hsub.subset hd))).2
  have hpos : 0 < b'.size := (hb.inv.pos b mem_live).trans_le hu.le
  refine (hold.cons (hu.addr ▸ hu.size) ⟨hu.addr ▸ (hb.laid.high b mem_cons_self).1, hu.high⟩
    fun d hd => ?_).perm (.swap ..)
  have hbeside := rel_of_pairwise_cons hb.laid.beside (hsub.subset hd)
  -- the blocks below have not moved, and those above begin behind the new end
  have hbelow : d.addr < b.addr → b'.Beside d := by
    intro hlt
    rcases hbeside with hbd | hdb
    · exact absurd ((Nat.le_add_right ..).trans hbd.1) (Nat.not_le.2 hlt)
    · exact .inr (hu.addr.symm ▸ hdb : d.addr + HSIZE ≤ b'.addr ∧ d.fin ≤ b'.addr)
  rcases mem_cons.1 hd with rfl | hd
  · exact hbelow hb.below
  rcases mem_append.1 hd with hd | hd
  · exact .inl ⟨(Block.header_le hpos).trans (hu.gap d hd).le, (hu.gap d hd).le⟩
  rcases mem_append.1 hd with hd | hd
  · have hdc := (pairwise_append.1 hb.sorted).2.2 d hd c mem_cons_self
    exact hbelow ((Nat.le_add_right ..).trans_lt (hdc.trans hb.below))
  · exact (hu.apart d hd).symm.beside hpos (hb.inv.pos d (by simp [hd]))

theorem upper_sorted : (b' :: K).Pairwise fun c d => c.fin < d.addr :=
  pairwise_cons.2
    ⟨hu.gap, (pairwise_append.1 hb.sorted).2.1.of_cons.sublist hu.suffix.sublist⟩

omit hu in
theorem pos_of_low (hd : d ∈ c :: K₂) (hlow : base < d.addr) : 0 < d.size := by
  have hnode : d ∈ nodes base F := hb.split ▸ mem_append_right _ hd
  rcases mem_cons.1 hnode with rfl | hd
  · exact absurd hlow (Nat.lt_irrefl base)
  · exact hb.inv.pos d (mem_append_left _ hd)

theorem pos_upper (hd : d ∈ b' :: K) (hlow : base < d.addr) : 0 < d.size := by
  rcases mem_cons.1 hd with rfl | hd
  · exact (hb.inv.pos b mem_live).trans_le hu.le
  · exact hb.pos_of_low (mem_cons_of_mem c (hu.suffix.subset hd)) hlow

omit hu in
theorem size_of_base (he : c.addr = base) : c.size = 0 := by
  have hnode : c ∈ nodes base F := hb.split ▸ mem_append_right _ mem_cons_self
  rcases mem_cons.1 hnode with rfl | hc
  · rfl
  · have := hb.inv.low c (mem_append_left _ hc)
    dsimp only [HSIZE] at this
    omega

variable {h' : Heap} (htop : h'.top = h.top) (hfreep : h'.freep = c.addr)
include htop hfreep

/-- `c` and `b'` do not touch. -/
theorem lower_link (hne : c.fin ≠ b.addr) (hm : h'.mem = m.setPtr c.addr b.addr) :
    ∃ F', Inv base h' F' L ∧ ∃ d ∈ F', b.size ≤ d.size := by
  have hl := hb.upper_laid hu
  have hlt : b.addr < 2 ^ 32 := by
    have h1 := (hb.laid.high b mem_cons_self).1
    have h2 := hb.inv.top_lt
    dsimp only [HSIZE] at h1
    omega
  have hfar : ∀ d ∈ K ++ (K₁ ++ L), Far c.addr d.addr := fun d hd =>
    hl.far (mem_cons_of_mem b' hd)
  have hsorted : (c :: b' :: K).Pairwise fun c d => c.fin < d.addr := by
    have hup := hb.upper_sorted hu
    have hcb : c.fin < b'.addr := hu.addr ▸ lt_of_le_of_ne hb.before.2 hne
    refine pairwise_cons.2 ⟨forall_mem_cons.2 ⟨hcb, fun d hd => ?_⟩, hup⟩
    exact hcb.trans ((Nat.le_add_right ..).trans_lt (rel_of_pairwise_cons hup hd))
  have hpath : Path h'.mem.ptr c.addr ((b' :: K).map Block.addr) base := by
    rw [map_cons, hu.addr, hm]
    refine Path.cons_iff.2 ⟨Mem.ptr_setPtr_self _ _ hlt, hu.path.congr ?_ fun x hx => ?_⟩
    · exact Mem.ptr_setPtr_far _ _ (hb.laid.far mem_cons_self).symm
    · obtain ⟨d, hd, rfl⟩ := mem_map.1 hx
      exact Mem.ptr_setPtr_far _ _ (hfar d (mem_append_left _ hd))
  have hkeep : ∀ d ∈ K₁, h'.mem.ptr d.addr = h.mem.ptr d.addr := by
    intro d hd
    rw [hm, Mem.ptr_setPtr_far _ _ (hfar d (by simp [hd]))]
    exact (hu.far _ (hb.far (by simp [hd])).1).1
  obtain ⟨F', hF', hinv⟩ := hb.rebuild htop (hl.setPtr mem_cons_self htop hm) rfl
    hb.size_of_base (forall_mem_cons.2 ⟨hb.pos_of_low mem_cons_self, fun d => hb.pos_upper hu⟩)
    hsorted hkeep hpath hfreep
  refine ⟨F', hinv, b', mem_of_nodes hF' (by simp) ?_, hu.le⟩
  exact hu.addr ▸ hb.inv.low b mem_live

/-- `c` and `b'` touch, and `c` is not `base` then. -/
theorem lower_join (he : c.fin = b.addr)
    (hm : h'.mem = (m.setSize c.addr (c.size + b'.size)).setPtr c.addr (m.ptr b.addr)) :
    ∃ F', Inv base h' F' L ∧ ∃ d ∈ F', b.size ≤ d.size := by
  have hl := hb.upper_laid hu
  have he' : c.fin = b'.addr := he.trans hu.addr.symm
  have hne : c.addr ≠ base := by
    intro hcb
    have hlow := hb.before.1
    rw [← he, Block.fin, hb.size_of_base hcb] at hlow
    dsimp only [HSIZE] at hlow
    omega
  have hbase : base + HSIZE ≤ c.addr := by
    have hnode : c ∈ nodes base F := hb.split ▸ mem_append_right _ mem_cons_self
    rcases mem_cons.1 hnode with rfl | hc
    · exact absurd rfl hne
    · exact hb.inv.low c (mem_append_left _ hc)
  have hptr : ∀ a, Far c.addr a → h'.mem.ptr a = m.ptr a := by
    intro a ha
    rw [hm, Mem.ptr_setPtr_far _ _ ha, Mem.ptr_setSize _ _ (.inr ha)]
  have hfar : ∀ d ∈ K ++ (K₁ ++ L), Far c.addr d.addr := fun d hd =>
    hl.far (mem_cons_of_mem b' hd)
  have hkeep : ∀ d ∈ K₁, h'.mem.ptr d.addr = h.mem.ptr d.addr := fun d hd =>
    (hptr _ (hfar d (by simp [hd]))).trans (hu.far _ (hb.far (by simp [hd])).1).1
  have hpos : 0 < (c.join b').size :=
    ((hb.inv.pos b mem_live).trans_le hu.le).trans_le (Nat.le_add_left ..)
  have hsorted : (c.join b' :: K).Pairwise fun c d => c.fin < d.addr :=
    pairwise_cons.2 ⟨fun d hd => Block.join_fin he' ▸ hu.gap d hd, (hb.upper_sorted hu).of_cons⟩
  have hpath : Path h'.mem.ptr c.addr (K.map Block.addr) base := by
    refine hu.path.congr ?_ fun x hx => ?_
    · rw [hm, Mem.ptr_setPtr_self _ _ (Mem.ptr_lt ..)]
    · obtain ⟨d, hd, rfl⟩ := mem_map.1 hx
      exact hptr _ (hfar d (mem_append_left _ hd))
  obtain ⟨F', hF', hinv⟩ := hb.rebuild htop (hl.join he' hb.inv.top_lt htop hm) rfl
    (fun hcb => absurd hcb hne) (forall_mem_cons.2 ⟨fun _ => hpos, fun d hd =>
      hb.pos_upper hu (mem_cons_of_mem b' hd)⟩) hsorted hkeep hpath hfreep
  refine ⟨F', hinv, _, mem_of_nodes hF' (mem_append_right _ mem_cons_self) hbase, ?_⟩
  exact hu.le.trans (Nat.le_add_left ..)

end

theorem joinLower (hu : Upper base h L K₂ b m b' K) :
    ∃ F', Inv base { h with mem := joinLower m b.addr c.addr, freep := c.addr } F' L ∧
      ∃ d ∈ F', b.size ≤ d.size := by
  have hl := hb.upper_laid hu
  have hadv : advance c.addr c.size = c.fin :=
    Nat.mod_eq_of_lt ((hl.high c mem_cons_self).2.trans_lt hb.inv.top_lt)
  unfold Malloc.joinLower
  rw [show m.size c.addr = c.size from hl.size c mem_cons_self, hu.size, hadv]
  by_cases he : c.fin = b.addr
  · rw [if_pos he]
    refine hb.lower_join hu rfl rfl he ?_
    dsimp only
    rw [Mem.ptr_setSize _ _ (.inr (hb.laid.far mem_cons_self).symm)]
  · rw [if_neg he]
    exact hb.lower_link hu rfl rfl he rfl

end Between

/-! ## `free` as a whole -/

/-- **`free` ends, and the block is among the free ones**, joined to those it touches. -/
theorem free_spec (hi : Inv base h F (b :: L)) :
    ∃ h' F', Inv base h' F' L ∧ (∃ d ∈ F', b.size ≤ d.size) ∧ h'.top = h.top ∧
      ∀ fuel, 2 * F.length + 2 < fuel → free fuel h (b.addr + HSIZE) = some h' := by
  have hnot : b.addr ∉ (nodes base F).map Block.addr := by
    intro hb
    obtain ⟨d, hd, he⟩ := mem_map.1 hb
    have hfar := ((pairwise_append.1 hi.laid.beside).2.2 d hd b mem_cons_self).far
    unfold Far at hfar
    dsimp only [HSIZE] at hfar
    omega
  obtain ⟨k₁, q, k₂, hk, hq, habove, hrun⟩ :=
    freeLoop_ends hi.links hi.addr_sorted (hi.above Between.mem_live) hnot hi.freep
  have hk : (nodes base F).map Block.addr = k₁ ++ q :: k₂ := hk
  obtain ⟨K₁, R, hsplit, rfl, hR⟩ := map_eq_append_iff.1 hk
  obtain ⟨c, K₂, rfl, rfl, rfl⟩ := map_eq_cons_iff.1 hR
  have hb : Between base h F L K₁ K₂ b c :=
    ⟨hi, hsplit, hq, fun d hd => habove _ (mem_map_of_mem hd)⟩
  obtain ⟨b', K, hu⟩ := hb.joinUpper
  obtain ⟨F', hinv, hlarge⟩ := hb.joinLower hu
  refine ⟨_, F', hinv, hlarge, rfl, fun fuel hf => ?_⟩
  unfold free
  dsimp only
  rw [Nat.add_sub_cancel, hrun fuel (by simpa using hf)]
  rfl

end Xv6.Malloc
