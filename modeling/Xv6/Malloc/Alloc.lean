import Xv6.Malloc.Free

/-!
# `malloc`

The loop goes once around the circle.  The first block that is large enough is taken, or its tail
is.  If there is none, `morecore` frees a new block that is, and a second way around finds it:
either it is the one that follows `freep`, or it has been joined to `freep` itself, which comes
last.
-/

namespace Xv6.Malloc

open List

variable {base : Nat} {h h' : Heap} {F F₁ F₂ L : List Block} {b c d x : Block} {n p q : Nat}

/-! ## Taking a block -/

theorem nodes_perm (x : Block) (F₁ F₂ L : List Block) :
    (nodes base (F₁ ++ x :: F₂) ++ L).Perm (x :: (nodes base (F₁ ++ F₂) ++ L)) :=
  ((perm_middle.append_right L).cons _).trans (.swap ..)

/-- The circle of free blocks around the block that follows `q`. -/
theorem Inv.split_next (hi : Inv base h F L) (hq : q ∈ base :: F.map Block.addr)
    (hne : h.mem.ptr q ≠ base) : ∃ K₁ c x K₂, nodes base F = K₁ ++ c :: x :: K₂ ∧ c.addr = q ∧
      x.addr = h.mem.ptr q := by
  have hnodup : (base :: F.map Block.addr).Nodup := hi.addr_sorted.imp Nat.ne_of_lt
  have hmem : h.mem.ptr q ∈ F.map Block.addr := by
    rcases mem_cons.1 (hi.links.next_mem hq) with hb | hb
    · exact absurd hb hne
    · exact hb
  obtain ⟨l₁, q', l₂, hl, hnext⟩ := hi.links.exists_prev hmem
  have hq' : q' ∈ base :: F.map Block.addr := by
    rw [hl]
    simp
  obtain rfl : q' = q := hi.links.next_inj hnodup hq' hq hnext
  have hl : (nodes base F).map Block.addr = l₁ ++ q' :: h.mem.ptr q' :: l₂ := hl
  obtain ⟨K₁, R, hsplit, rfl, hR⟩ := map_eq_append_iff.1 hl
  obtain ⟨c, R, rfl, hc, hR⟩ := map_eq_cons_iff.1 hR
  obtain ⟨x, K₂, rfl, hx, rfl⟩ := map_eq_cons_iff.1 hR
  exact ⟨K₁, c, x, K₂, hsplit, hc, hx⟩

section
variable {K₁ K₂ : List Block} (hs : nodes base F = K₁ ++ c :: x :: K₂)
include hs

theorem addr_split : base :: F.map Block.addr =
    K₁.map Block.addr ++ c.addr :: x.addr :: K₂.map Block.addr := by
  have := congrArg (List.map Block.addr) hs
  simpa using this

theorem free_split : ∃ F₁, F = F₁ ++ x :: K₂ ∧ nodes base F₁ = K₁ ++ [c] := by
  cases K₁ with
  | nil =>
    cases hs
    exact ⟨[], rfl, rfl⟩
  | cons a K₁ =>
    cases hs
    exact ⟨K₁ ++ [c], by simp, rfl⟩

variable (hi : Inv base h F L)
include hi

theorem Inv.low_next : base < x.addr := by
  obtain ⟨F₁, rfl, -⟩ := free_split hs
  exact rel_of_pairwise_cons hi.nodes_sorted (by simp)

/-- `p->s.size == nunits`: the block is taken out of the circle. -/
theorem Inv.take_whole (hm : h'.mem = h.mem.setPtr c.addr (h.mem.ptr x.addr))
    (hf : h'.freep = c.addr) (htop : h'.top = h.top) : ∃ F', Inv base h' F' (x :: L) := by
  have hlow := hi.low_next hs
  have hlc : Laid h (c :: (K₁ ++ x :: K₂ ++ L)) := by
    have hl := hi.laid
    rw [hs] at hl
    exact hl.perm (perm_middle.append_right L)
  have haddr := addr_split hs
  obtain ⟨F₁, rfl, hF₁⟩ := free_split hs
  have hnodes : nodes base (F₁ ++ K₂) = K₁ ++ c :: K₂ := by
    show nodes base F₁ ++ K₂ = _
    rw [hF₁, append_assoc]
    rfl
  have hc : c ∈ nodes base (F₁ ++ K₂) := hnodes ▸ by simp
  have hptr : ∀ d ∈ K₁ ++ K₂, h'.mem.ptr d.addr = h.mem.ptr d.addr := by
    intro d hd
    rw [hm]
    refine Mem.ptr_setPtr_far _ _ (hlc.far ?_)
    simp only [mem_append, mem_cons] at hd ⊢
    tauto
  have hl : Laid h (nodes base (F₁ ++ K₂) ++ x :: L) :=
    hi.laid.perm ((nodes_perm x F₁ K₂ L).trans perm_middle.symm)
  refine ⟨F₁ ++ K₂, (hl.setPtr (mem_append_left _ hc) htop hm).cells hi.base_pos
    (htop ▸ hi.top_lt) (fun d hd => hi.pos d ?_) (forall_mem_cons.2 ⟨hlow, fun d hd => ?_⟩)
    (hi.nodes_sorted.sublist (((sublist_cons_self x K₂).append_left F₁).cons_cons _)), ?_, ?_⟩
  · simp only [mem_append, mem_cons] at hd ⊢
    tauto
  · exact hi.above (mem_append_right _ hd)
  · show Circle h'.mem.ptr ((nodes base (F₁ ++ K₂)).map Block.addr)
    rw [hnodes, map_append, map_cons]
    refine hi.links.relink haddr (fun y hy => ?_) ?_
    · obtain ⟨d, hd, rfl⟩ := mem_map.1 hy
      exact hptr d (mem_append_left _ hd)
    · have hpath := (Path.cons_iff.1 (hi.links.path_tail haddr)).2
      refine hpath.congr ?_ fun y hy => ?_
      · rw [hm, Mem.ptr_setPtr_self _ _ (Mem.ptr_lt ..)]
      · obtain ⟨d, hd, rfl⟩ := mem_map.1 hy
        exact hptr d (mem_append_right _ hd)
  · rw [hf]
    exact mem_map_of_mem hc

/-- The tail of the block is taken. -/
theorem Inv.take_part (hn : 0 < n) (hlt : n < x.size)
    (hm : h'.mem = (h.mem.setSize x.addr (x.size - n)).setSize (x.addr + HSIZE * (x.size - n)) n)
    (hf : h'.freep = c.addr) (htop : h'.top = h.top) :
    ∃ F', Inv base h' F' (⟨x.addr + HSIZE * (x.size - n), n⟩ :: L) := by
  have hlow := hi.low_next hs
  have hc : c.addr ∈ (nodes base F).map Block.addr := mem_map_of_mem (hs ▸ by simp)
  obtain ⟨F₁, rfl, hF₁⟩ := free_split hs
  have hmap : (nodes base (F₁ ++ ⟨x.addr, x.size - n⟩ :: K₂)).map Block.addr =
      (nodes base (F₁ ++ x :: K₂)).map Block.addr := by simp
  have hsplit := (hi.laid.perm (nodes_perm x F₁ K₂ L)).split hn hlt hi.top_lt htop hm
  -- both headers are apart from all others
  have hptr : ∀ d ∈ nodes base (F₁ ++ ⟨x.addr, x.size - n⟩ :: K₂),
      h'.mem.ptr d.addr = h.mem.ptr d.addr := by
    intro d hd
    have hd' := (nodes_perm _ F₁ K₂ L).mem_iff.1 (mem_append_left L hd)
    have hmem : d ∈ ⟨x.addr, x.size - n⟩ :: ⟨x.addr + HSIZE * (x.size - n), n⟩ ::
        (nodes base (F₁ ++ K₂) ++ L) := by
      simp only [mem_cons] at hd' ⊢
      tauto
    rw [hm, Mem.ptr_setSize _ _ (hsplit.near (mem_cons_of_mem _ mem_cons_self) hmem),
      Mem.ptr_setSize _ _ (hsplit.near mem_cons_self hmem)]
  have hl := hsplit.perm ((Perm.swap ..).trans
    (((nodes_perm _ F₁ K₂ L).symm.cons _).trans perm_middle.symm))
  refine ⟨F₁ ++ ⟨x.addr, x.size - n⟩ :: K₂, hl.cells hi.base_pos (htop ▸ hi.top_lt)
    (fun d hd => ?_) (forall_mem_cons.2 ⟨?_, fun d hd => ?_⟩) ?_, ?_, ?_⟩
  · simp only [mem_append, mem_cons] at hd
    rcases hd with (hd | rfl | hd) | rfl | hd
    · exact hi.pos d (by simp [hd])
    · exact Nat.sub_pos_of_lt hlt
    · exact hi.pos d (by simp [hd])
    · exact hn
    · exact hi.pos d (by simp [hd])
  · exact hlow.trans_le (Nat.le_add_right ..)
  · exact hi.above (mem_append_right _ hd)
  · -- the block only ends earlier
    have hfin : Block.fin ⟨x.addr, x.size - n⟩ ≤ x.fin :=
      Nat.add_le_add_left (Nat.mul_le_mul_left _ (Nat.sub_le ..)) _
    have hs := hi.nodes_sorted
    rw [nodes, ← cons_append] at hs ⊢
    obtain ⟨hs₁, hs₂, hs₁₂⟩ := pairwise_append.1 hs
    obtain ⟨hx, hs₂⟩ := pairwise_cons.1 hs₂
    refine pairwise_append.2 ⟨hs₁, pairwise_cons.2 ⟨fun d hd => hfin.trans_lt (hx d hd), hs₂⟩,
      fun d hd => forall_mem_cons.2 ⟨hs₁₂ d hd x mem_cons_self, fun e he => ?_⟩⟩
    exact hs₁₂ d hd e (mem_cons_of_mem x he)
  · show Circle h'.mem.ptr ((nodes base (F₁ ++ _ :: K₂)).map Block.addr)
    rw [hmap]
    refine hi.links.congr fun a ha => ?_
    have ha : a ∈ (nodes base (F₁ ++ x :: K₂)).map Block.addr := ha
    rw [← hmap] at ha
    obtain ⟨d, hd, rfl⟩ := mem_map.1 ha
    exact hptr d hd
  · rw [hf]
    show c.addr ∈ (nodes base (F₁ ++ _ :: K₂)).map Block.addr
    rw [hmap]
    exact hc

end

/-- A block of `n` headers is handed out, out of the one that follows `q`. -/
theorem take_spec (hi : Inv base h F L) (hq : q ∈ base :: F.map Block.addr) (hn : 0 < n)
    (hle : n ≤ h.mem.size (h.mem.ptr q)) :
    ∃ F' b, b.size = n ∧ Inv base (take h n q (h.mem.ptr q)).1 F' (b :: L) ∧
      (take h n q (h.mem.ptr q)).1.top = h.top ∧
      (take h n q (h.mem.ptr q)).2 = b.addr + HSIZE := by
  have hne : h.mem.ptr q ≠ base := by
    intro he
    rw [he, hi.base_size] at hle
    omega
  obtain ⟨K₁, c, x, K₂, hs, rfl, hx⟩ := hi.split_next hq hne
  obtain ⟨F₁, hF, -⟩ := free_split hs
  have hmem : x ∈ F := by simp [hF]
  have hsize := hi.size x (mem_append_left L hmem)
  rw [← hx] at hle ⊢
  unfold take
  rcases Nat.lt_or_eq_of_le hle with hlt | he
  · have hfin : x.addr + HSIZE * x.size ≤ h.top := (hi.fine hmem).high
    have htop := hi.top_lt
    have hself : (h.mem.setSize x.addr (x.size - n)).size x.addr = x.size - n :=
      Mem.size_setSize_self _ _ (by dsimp only [HSIZE] at hfin; omega)
    have hadv : advance x.addr (x.size - n) = x.addr + HSIZE * (x.size - n) := by
      refine Nat.mod_eq_of_lt ?_
      dsimp only [HSIZE] at hfin ⊢
      omega
    rw [if_neg (Nat.ne_of_gt hlt)]
    dsimp only
    rw [hsize, hself, hadv]
    rw [hsize] at hlt
    obtain ⟨F', hi'⟩ := Inv.take_part hs hi hn hlt
      (show (Heap.mk _ c.addr h.top).mem = _ from rfl) rfl rfl
    exact ⟨F', _, rfl, hi', rfl, rfl⟩
  · rw [if_pos he.symm]
    obtain ⟨F', hi'⟩ := Inv.take_whole hs hi (show (Heap.mk _ c.addr h.top).mem = _ from rfl) rfl rfl
    exact ⟨F', x, by rw [he, hsize], hi', rfl, rfl⟩

/-! ## Growing the heap -/

/-- A region that `sbrk` has returned is one more block outside the circle. -/
theorem Inv.grow (hi : Inv base h F L) (hb : 0 < b.size) (hge : h.top ≤ b.addr)
    (hlt : b.fin < 2 ^ 32) :
    Inv base { h with mem := h.mem.setSize b.addr b.size, top := b.fin } F (b :: L) := by
  have hsize : b.size < 2 ^ 32 := by
    unfold Block.fin at hlt
    dsimp only [HSIZE] at hlt
    omega
  have hl : Laid { h with mem := h.mem.setSize b.addr b.size, top := b.fin }
      (b :: (nodes base F ++ L)) := hi.laid.grow hb hge hsize rfl rfl
  refine ⟨(hl.perm perm_middle.symm).cells hi.base_pos hlt (fun d hd => ?_)
    (forall_mem_cons.2 ⟨?_, fun d hd => ?_⟩) hi.nodes_sorted, ?_, hi.freep⟩
  · simp only [mem_append, mem_cons] at hd
    rcases hd with hd | rfl | hd
    · exact hi.pos d (by simp [hd])
    · exact hb
    · exact hi.pos d (by simp [hd])
  · exact ((Nat.lt_add_of_pos_right (by decide)).trans_le hi.base_lt).trans_le hge
  · exact hi.above (mem_append_right F hd)
  · refine hi.links.congr fun a ha => Mem.ptr_setSize _ _ (.inr ?_)
    have ha : a ∈ (nodes base F).map Block.addr := ha
    obtain ⟨d, hd, rfl⟩ := mem_map.1 ha
    exact hl.far (mem_append_left L hd)

theorem Inv.freep_ne_zero (hi : Inv base h F L) : h.freep ≠ 0 := by
  have hpos := hi.base_pos
  rcases mem_cons.1 hi.freep with he | hm
  · omega
  · obtain ⟨d, hd, he⟩ := mem_map.1 hm
    have := hi.low d (mem_append_left L hd)
    omega

/-- Either there is no memory, or there is now a block that is large enough. -/
theorem morecore_spec (k : Sbrk) (hi : Inv base h F L) (hn : n * HSIZE < 2 ^ 31) :
    (∀ fuel, morecore k fuel h n = some (h, 0)) ∨
    ∃ h' F', Inv base h' F' L ∧ (∃ d ∈ F', n ≤ d.size) ∧ h.top ≤ h'.top ∧
      ∀ fuel, 2 * F.length + 2 < fuel → morecore k fuel h n = some (h', h'.freep) := by
  unfold morecore
  generalize hnu : (if n < 4096 then 4096 else n) = nu
  have hle : n ≤ nu ∧ 0 < nu ∧ nu * HSIZE < 2 ^ 32 := by
    dsimp only [HSIZE] at hn ⊢
    split at hnu <;> omega
  have hmod : nu * HSIZE % 2 ^ 32 = HSIZE * nu := by
    rw [Nat.mod_eq_of_lt hle.2.2, Nat.mul_comm]
  dsimp only
  rw [hmod]
  cases hcall : k.call h.top (HSIZE * nu) with
  | none => exact .inl fun _ => rfl
  | some a =>
    obtain ⟨hge, hlt⟩ := k.fresh _ _ _ hcall
    obtain ⟨h', F', hi', ⟨d, hd, hsize⟩, htop, hfree⟩ :=
      free_spec (hi.grow (b := ⟨a, nu⟩) hle.2.1 hge hlt)
    refine .inr ⟨h', F', hi', ⟨d, hd, hle.1.trans hsize⟩, ?_, fun fuel hfuel => ?_⟩
    · rw [htop]
      exact hge.trans (Nat.le_add_right ..)
    · show (free fuel _ (a + HSIZE)).bind _ = _
      erw [hfree fuel hfuel]
      rfl

/-! ## The loop -/

section
variable (k : Sbrk) {l : List Nat}

/-- The way from `prevp` to `freep`: a block is found on it, or the loop gets to `freep`. -/
theorem mallocLoop_scan (hl : h.freep ∉ l) {prevp : Nat} (hp : Path h.mem.ptr prevp l h.freep) :
    (∃ q ∈ prevp :: l, n ≤ h.mem.size (h.mem.ptr q) ∧ ∀ fuel, l.length < fuel →
      mallocLoop k n fuel h prevp (h.mem.ptr prevp) = some (take h n q (h.mem.ptr q))) ∨
    (∀ a ∈ l ++ [h.freep], h.mem.size a < n) ∧ ∀ fuel, ∃ q,
      mallocLoop k n (fuel + l.length) h prevp (h.mem.ptr prevp) =
        mallocLoop k n fuel h q h.freep := by
  induction l generalizing prevp with
  | nil =>
    have hnext : h.mem.ptr prevp = h.freep := Path.nil_iff.1 hp
    by_cases hle : n ≤ h.mem.size (h.mem.ptr prevp)
    · refine .inl ⟨prevp, mem_cons_self, hle, fun fuel hfuel => ?_⟩
      obtain ⟨fuel, rfl⟩ := Nat.exists_eq_add_of_lt hfuel
      rw [mallocLoop, if_pos hle]
    · refine .inr ⟨?_, fun fuel => ⟨prevp, by rw [hnext]; rfl⟩⟩
      intro a ha
      obtain rfl : a = h.freep := by simpa using ha
      rw [hnext] at hle
      omega
  | cons x l ih =>
    obtain ⟨hnext, hp⟩ := Path.cons_iff.1 hp
    have hxne : ¬ x = h.freep := fun he => hl (he ▸ mem_cons_self)
    by_cases hle : n ≤ h.mem.size (h.mem.ptr prevp)
    · refine .inl ⟨prevp, mem_cons_self, hle, fun fuel hfuel => ?_⟩
      obtain ⟨fuel, rfl⟩ := Nat.exists_eq_add_of_lt hfuel
      rw [mallocLoop, if_pos hle]
    · -- one step of the loop
      have hstep : ∀ fuel, mallocLoop k n (fuel + 1) h prevp (h.mem.ptr prevp) =
          mallocLoop k n fuel h x (h.mem.ptr x) := by
        intro fuel
        rw [mallocLoop, if_neg hle, hnext, if_neg hxne]
      rcases ih (fun hm => hl (mem_cons_of_mem x hm)) hp with ⟨q, hq, hsize, hloop⟩ | ⟨hall, hloop⟩
      · refine .inl ⟨q, mem_cons_of_mem _ hq, hsize, fun fuel hfuel => ?_⟩
        obtain ⟨fuel, rfl⟩ : ∃ f, fuel = f + 1 := ⟨fuel - 1, by omega⟩
        rw [hstep]
        exact hloop fuel (by simpa using hfuel)
      · refine .inr ⟨fun a ha => ?_, fun fuel => ?_⟩
        · rcases mem_cons.1 ha with rfl | ha
          · rw [hnext] at hle
            omega
          · exact hall a ha
        · obtain ⟨q, hq⟩ := hloop fuel
          refine ⟨q, ?_⟩
          rw [length_cons, ← Nat.add_assoc, hstep, hq]

/-- Once around the circle. -/
theorem mallocLoop_around (hi : Inv base h F L) :
    (∃ q ∈ base :: F.map Block.addr, n ≤ h.mem.size (h.mem.ptr q) ∧ ∀ fuel, F.length < fuel →
      mallocLoop k n fuel h h.freep (h.mem.ptr h.freep) = some (take h n q (h.mem.ptr q))) ∨
    (∀ d ∈ F, d.size < n) ∧ h.mem.size h.freep < n ∧ ∀ fuel, ∃ q,
      mallocLoop k n (fuel + F.length) h h.freep (h.mem.ptr h.freep) =
        mallocLoop k n fuel h q h.freep := by
  obtain ⟨l₁, l₂, hl⟩ := append_of_mem hi.freep
  have hlinks := hi.links
  rw [hl] at hlinks
  have hnodup : (base :: F.map Block.addr).Nodup := hi.addr_sorted.imp Nat.ne_of_lt
  rw [hl] at hnodup
  have hmem : ∀ a, a ∈ base :: F.map Block.addr ↔ a ∈ h.freep :: (l₂ ++ l₁) := by
    intro a
    rw [hl]
    simp only [mem_append, mem_cons]
    tauto
  have hlen : (l₂ ++ l₁).length = F.length := by
    have := congrArg List.length hl
    simp only [length_cons, length_map, length_append] at this ⊢
    omega
  have hout : h.freep ∉ l₂ ++ l₁ := by
    have hperm : (l₁ ++ h.freep :: l₂).Perm (h.freep :: (l₂ ++ l₁)) := by
      exact perm_middle.trans (perm_append_comm.cons _)
    exact (nodup_cons.1 (hperm.nodup_iff.1 hnodup)).1
  rcases mallocLoop_scan k hout (n := n) hlinks.path with ⟨q, hq, hsize, hloop⟩ | ⟨hall, hloop⟩
  · exact .inl ⟨q, (hmem q).2 hq, hsize, fun fuel hfuel => hloop fuel (hlen ▸ hfuel)⟩
  · refine .inr ⟨fun d hd => ?_, hall _ (by simp), fun fuel => hlen ▸ hloop fuel⟩
    have hd' := (hmem d.addr).1 (mem_cons_of_mem base (mem_map_of_mem hd))
    rw [← hi.size d (mem_append_left L hd)]
    refine hall d.addr ?_
    simp only [mem_append, mem_cons] at hd' ⊢
    tauto

end

/-- What `malloc` returns: nothing, or a block of `n` headers. -/
structure Given (base : Nat) (h : Heap) (L : List Block) (n : Nat) (r : Heap × Nat) : Prop where
  top : h.top ≤ r.1.top
  inv : r.2 = 0 ∧ (∃ F, Inv base r.1 F L) ∨
    ∃ F b, b.size = n ∧ r.2 = b.addr + HSIZE ∧ Inv base r.1 F (b :: L)

theorem Given.of_take (hi : Inv base h' F L) (hq : q ∈ base :: F.map Block.addr) (hn : 0 < n)
    (hle : n ≤ h'.mem.size (h'.mem.ptr q)) (htop : h.top ≤ h'.top) :
    Given base h L n (take h' n q (h'.mem.ptr q)) := by
  obtain ⟨F', b, hb, hi', htop', hr⟩ := take_spec hi hq hn hle
  exact ⟨htop'.symm ▸ htop, .inr ⟨F', b, hb, hr, hi'⟩⟩

theorem mallocLoop_spec (k : Sbrk) (hi : Inv base h F L) (hn : 0 < n) (hlt : n * HSIZE < 2 ^ 31) :
    ∃ r, Given base h L n r ∧
      Returns (fun fuel => mallocLoop k n fuel h h.freep (h.mem.ptr h.freep)) r := by
  rcases mallocLoop_around k (n := n) hi with ⟨q, hq, hle, hloop⟩ | ⟨-, hfreep, hloop⟩
  · exact ⟨_, .of_take hi hq hn hle (Nat.le_refl _), F.length + 1, hloop⟩
  -- no block is large enough
  have hgrow : ∀ fuel q, mallocLoop k n (fuel + 1) h q h.freep =
      (morecore k fuel h n).bind fun r =>
        if r.2 = 0 then some (r.1, 0) else mallocLoop k n fuel r.1 r.2 (r.1.mem.ptr r.2) := by
    intro fuel q
    rw [mallocLoop, if_neg (Nat.not_le.2 hfreep), if_pos rfl] <;> rfl
  rcases morecore_spec k hi hlt with hmore | ⟨h', F', hi', ⟨d, hd, hsize⟩, htop, hmore⟩
  · refine ⟨(h, 0), ⟨Nat.le_refl _, .inl ⟨rfl, F, hi⟩⟩, F.length + 1, fun fuel hfuel => ?_⟩
    obtain ⟨f, rfl⟩ : ∃ f, fuel = (f + 1) + F.length := ⟨fuel - F.length - 1, by omega⟩
    obtain ⟨q, hq⟩ := hloop (f + 1)
    show mallocLoop _ _ _ _ _ _ = _
    rw [hq, hgrow, hmore]
    rfl
  · -- the second way around finds the new block
    rcases mallocLoop_around k (n := n) hi' with ⟨q, hq, hle, hloop'⟩ | ⟨hall, -⟩
    · refine ⟨_, .of_take hi' hq hn hle htop, 3 * F.length + F'.length + 4, fun fuel hfuel => ?_⟩
      obtain ⟨f, rfl⟩ : ∃ f, fuel = (f + 1) + F.length := ⟨fuel - F.length - 1, by omega⟩
      obtain ⟨q', hq'⟩ := hloop (f + 1)
      show mallocLoop _ _ _ _ _ _ = _
      rw [hq', hgrow, hmore f (by omega)]
      show (if h'.freep = 0 then _ else _) = _
      rw [if_neg hi'.freep_ne_zero]
      exact hloop' f (by omega)
    · have := hall d hd
      omega

/-! ## The first call -/

theorem start_inv (hbase : 0 < base) (htop : base + HSIZE ≤ h.top) (hlt : h.top < 2 ^ 32)
    (hf : h.freep = 0) : Inv base (start base h) [] [] := by
  unfold start
  rw [if_pos hf]
  have hsize : ((h.mem.setPtr base base).setSize base 0).size base = 0 :=
    Mem.size_setSize_self _ _ (by decide)
  have hptr : ((h.mem.setPtr base base).setSize base 0).ptr base = base := by
    rw [Mem.ptr_setSize _ _ (.inl rfl)]
    exact Mem.ptr_setPtr_self _ _ (by omega)
  exact ⟨⟨hbase, htop, hlt, by simp, by simp, by simp, by simp, hsize, .nil, .nil, by simp⟩,
    .singleton hptr, mem_cons_self⟩

theorem Inv.start_eq (hi : Inv base h F L) : start base h = h := if_neg hi.freep_ne_zero

/-- A request whose size does not wrap has `units n` headers, one of them its own. -/
theorem units_spec (hn : ((n + 7) / 8 + 1) * 8 < 2 ^ 31) :
    0 < units n ∧ units n * HSIZE < 2 ^ 31 ∧ n ≤ HSIZE * (units n - 1) := by
  have hu : units n = (n + 7) / 8 + 1 := by
    unfold units
    dsimp only [HSIZE]
    omega
  rw [hu]
  dsimp only [HSIZE]
  omega

theorem malloc_spec (k : Sbrk) (hi : Inv base (start base h) F L)
    (hn : ((n + 7) / 8 + 1) * 8 < 2 ^ 31) :
    ∃ r, Given base (start base h) L (units n) r ∧
      Returns (fun fuel => malloc base k fuel h n) r := by
  obtain ⟨hpos, hlt, -⟩ := units_spec hn
  exact mallocLoop_spec k hi hpos hlt

end Xv6.Malloc
