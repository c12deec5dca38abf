import Xv6.Lib.Circle
import Xv6.Malloc.Model

/-!
# Blocks of the heap

The heap as a list of free blocks, in the order of their addresses, and a list of blocks that are
handed out.  `Inv` says that memory holds it: the sizes are in the headers, the free blocks are
linked in a circle through `base`, all blocks are apart, and no two free blocks touch.  A store
into a header changes that header only, as the others are at least a header away (`Far`).

`Laid` says of any list of blocks that their sizes are in memory and that they are beside each
other.  The order of the list does not matter there, so that a block is cut, joined to another or
handed out at the head of it.
-/

namespace Xv6.Malloc

open List

variable {m : Mem} {a b p q v : Nat}

/-! ## Stores into headers -/

theorem word_lt (m : Mem) (a : Nat) : word m a < 2 ^ 32 := by
  have h0 := (m a).toNat_lt
  have h1 := (m (a + 1)).toNat_lt
  have h2 := (m (a + 2)).toNat_lt
  have h3 := (m (a + 3)).toNat_lt
  unfold word
  omega

theorem word_putWord_self (m : Mem) (a : Nat) (hv : v < 2 ^ 32) : word (putWord m a v) a = v := by
  have hin : ∀ c < 4, a ≤ a + c ∧ a + c < a + 4 := fun c hc => by omega
  have hsub : ∀ c, a + c - a = c := fun c => Nat.add_sub_cancel_left ..
  have h0 := hin 0 (by decide)
  have e0 := hsub 0
  simp only [Nat.add_zero] at h0 e0
  simp only [word, putWord, h0, e0, hin 1 (by decide), hin 2 (by decide), hin 3 (by decide), hsub,
    and_self, if_true, UInt8.toNat_ofNat']
  omega

theorem word_putWord_far (m : Mem) (v : Nat) (h : a + 4 ≤ b ∨ b + 4 ≤ a) :
    word (putWord m a v) b = word m b := by
  have hout : ∀ c < 4, ¬ (a ≤ b + c ∧ b + c < a + 4) := fun c hc => by omega
  have h0 := hout 0 (by decide)
  simp only [Nat.add_zero] at h0
  simp only [word, putWord, h0, hout 1 (by decide), hout 2 (by decide), hout 3 (by decide),
    if_false]

/-- Two headers do not overlap. -/
def Far (a b : Nat) : Prop := a + HSIZE ≤ b ∨ b + HSIZE ≤ a

theorem Far.symm (h : Far a b) : Far b a := Or.symm h

namespace Mem

theorem ptr_setPtr_self (m : Mem) (a : Nat) (hv : v < 2 ^ 32) : (m.setPtr a v).ptr a = v :=
  word_putWord_self m a hv

theorem size_setSize_self (m : Mem) (a : Nat) (hv : v < 2 ^ 32) : (m.setSize a v).size a = v :=
  word_putWord_self m (a + 4) hv

theorem ptr_setPtr_far (m : Mem) (v : Nat) (h : Far a b) : (m.setPtr a v).ptr b = m.ptr b :=
  word_putWord_far m v (by unfold Far at h; dsimp only [HSIZE] at h; omega)

theorem size_setSize_far (m : Mem) (v : Nat) (h : Far a b) : (m.setSize a v).size b = m.size b :=
  word_putWord_far m v (by unfold Far at h; dsimp only [HSIZE] at h; omega)

theorem ptr_setSize (m : Mem) (v : Nat) (h : b = a ∨ Far a b) : (m.setSize a v).ptr b = m.ptr b :=
  word_putWord_far m v (by unfold Far at h; dsimp only [HSIZE] at h; omega)

theorem size_setPtr (m : Mem) (v : Nat) (h : b = a ∨ Far a b) : (m.setPtr a v).size b = m.size b :=
  word_putWord_far m v (by unfold Far at h; dsimp only [HSIZE] at h; omega)

theorem ptr_lt (m : Mem) (a : Nat) : m.ptr a < 2 ^ 32 := word_lt m a

end Mem

/-! ## The heap as lists of blocks -/

structure Block where
  addr : Nat
  /-- in headers, with its own -/
  size : Nat

def Block.fin (b : Block) : Nat := b.addr + HSIZE * b.size

def Block.Apart (b c : Block) : Prop := b.fin ≤ c.addr ∨ c.fin ≤ b.addr

theorem Block.Apart.symm {b c : Block} (h : b.Apart c) : c.Apart b := Or.symm h

/-- The free blocks `F` and the blocks `L` that are handed out: their sizes and places. -/
structure Cells (base : Nat) (h : Heap) (F L : List Block) : Prop where
  base_pos : 0 < base
  base_lt : base + HSIZE ≤ h.top
  top_lt : h.top < 2 ^ 32
  pos : ∀ b ∈ F ++ L, 0 < b.size
  low : ∀ b ∈ F ++ L, base + HSIZE ≤ b.addr
  high : ∀ b ∈ F ++ L, b.fin ≤ h.top
  size : ∀ b ∈ F ++ L, h.mem.size b.addr = b.size
  base_size : h.mem.size base = 0
  sorted : F.Pairwise fun b c => b.fin < c.addr
  apart : L.Pairwise Block.Apart
  live : ∀ b ∈ L, ∀ c ∈ F, b.Apart c

structure Inv (base : Nat) (h : Heap) (F L : List Block) : Prop extends Cells base h F L where
  links : Circle h.mem.ptr (base :: F.map Block.addr)
  freep : h.freep ∈ base :: F.map Block.addr

/-- The circle, with `base` as a block without any room. -/
abbrev nodes (base : Nat) (F : List Block) : List Block := ⟨base, 0⟩ :: F

/-! ## Blocks beside each other -/

namespace Block

variable {b c d : Block}

/-- `b` ends, header and all, before `c` begins. -/
def Before (b c : Block) : Prop := b.addr + HSIZE ≤ c.addr ∧ b.fin ≤ c.addr

def Beside (b c : Block) : Prop := b.Before c ∨ c.Before b

theorem Beside.symm (h : b.Beside c) : c.Beside b := Or.symm h

theorem Beside.far (h : b.Beside c) : Far b.addr c.addr := h.imp And.left And.left

theorem Beside.apart (h : b.Beside c) : b.Apart c := h.imp And.right And.right

theorem header_le (h : 0 < b.size) : b.addr + HSIZE ≤ b.fin := by
  unfold fin
  dsimp only [HSIZE]
  omega

theorem Apart.beside (h : b.Apart c) (hb : 0 < b.size) (hc : 0 < c.size) : b.Beside c :=
  h.imp (fun hle => ⟨(header_le hb).trans hle, hle⟩) fun hle => ⟨(header_le hc).trans hle, hle⟩

/-- Two blocks that touch, as one. -/
def join (b c : Block) : Block := ⟨b.addr, b.size + c.size⟩

theorem join_fin (h : b.fin = c.addr) : (b.join c).fin = c.fin := by
  unfold join fin at *
  dsimp only [HSIZE] at *
  omega

theorem Beside.join (h : b.fin = c.addr) (hb : b.Beside d) (hc : c.Beside d) :
    (b.join c).Beside d := by
  unfold Beside Before at *
  rw [join_fin h]
  show b.addr + HSIZE ≤ d.addr ∧ c.fin ≤ d.addr ∨ d.addr + HSIZE ≤ b.addr ∧ d.fin ≤ b.addr
  dsimp only [HSIZE] at *
  omega

end Block

structure Laid (h : Heap) (B : List Block) : Prop where
  size : ∀ b ∈ B, h.mem.size b.addr = b.size
  high : ∀ b ∈ B, b.addr + HSIZE ≤ h.top ∧ b.fin ≤ h.top
  beside : B.Pairwise Block.Beside

namespace Laid

variable {h h' : Heap} {B B' : List Block} {b c x : Block} {n : Nat}

theorem subperm (hl : Laid h B) (hs : B'.Subperm B) : Laid h B' := by
  obtain ⟨B₁, hp, hB₁⟩ := hs
  have hmem : ∀ b ∈ B', b ∈ B := fun b hb => hB₁.subset (hp.mem_iff.2 hb)
  exact ⟨fun b hb => hl.size b (hmem b hb), fun b hb => hl.high b (hmem b hb),
    (hp.pairwise_iff Block.Beside.symm).1 (hl.beside.sublist hB₁)⟩

theorem perm (hl : Laid h B) (hp : B.Perm B') : Laid h B' := hl.subperm hp.symm.subperm

theorem tail (hl : Laid h (b :: B)) : Laid h B := hl.subperm (sublist_cons_self b B).subperm

theorem cons (hl : Laid h B) (hsize : h.mem.size b.addr = b.size)
    (hhigh : b.addr + HSIZE ≤ h.top ∧ b.fin ≤ h.top) (hb : ∀ d ∈ B, b.Beside d) :
    Laid h (b :: B) :=
  ⟨forall_mem_cons.2 ⟨hsize, hl.size⟩, forall_mem_cons.2 ⟨hhigh, hl.high⟩,
    pairwise_cons.2 ⟨hb, hl.beside⟩⟩

theorem far (hl : Laid h (b :: B)) (hc : c ∈ B) : Far b.addr c.addr :=
  (rel_of_pairwise_cons hl.beside hc).far

/-- The header of a block is the same or does not overlap. -/
theorem near (hl : Laid h B) (hb : b ∈ B) (hc : c ∈ B) : c.addr = b.addr ∨ Far b.addr c.addr := by
  have : Std.Symm Block.Beside := ⟨fun _ _ => Block.Beside.symm⟩
  by_cases he : b = c
  · exact .inl (by rw [he])
  · exact .inr (hl.beside.forall hb hc he).far

theorem congr (hl : Laid h B) (htop : h'.top = h.top)
    (hsize : ∀ b ∈ B, h'.mem.size b.addr = h.mem.size b.addr) : Laid h' B :=
  ⟨fun b hb => (hsize b hb).trans (hl.size b hb), fun b hb => htop ▸ hl.high b hb, hl.beside⟩

theorem setPtr (hl : Laid h B) (hb : b ∈ B) {v : Nat} (htop : h'.top = h.top)
    (hm : h'.mem = h.mem.setPtr b.addr v) : Laid h' B :=
  hl.congr htop fun c hc => by rw [hm, Mem.size_setPtr _ _ (hl.near hb hc)]

theorem size_lt (hl : Laid h B) (hb : b ∈ B) (hlt : h.top < 2 ^ 32) : b.size < 2 ^ 32 := by
  have hfin := (hl.high b hb).2
  unfold Block.fin at hfin
  dsimp only [HSIZE] at hfin
  omega

/-- Two blocks that touch become one. -/
theorem join (hl : Laid h (b :: c :: B)) (he : b.fin = c.addr) (hlt : h.top < 2 ^ 32) {v : Nat}
    (htop : h'.top = h.top)
    (hm : h'.mem = (h.mem.setSize b.addr (b.size + c.size)).setPtr b.addr v) :
    Laid h' (b.join c :: B) := by
  have hhigh : (b.join c).fin ≤ h.top := by
    rw [Block.join_fin he]
    exact (hl.high c (by simp)).2
  have hsum : b.size + c.size < 2 ^ 32 := by
    unfold Block.fin Block.join at hhigh
    dsimp only [HSIZE] at hhigh
    omega
  refine (hl.tail.tail.congr htop fun d hd => ?_).cons ?_ (htop ▸ ⟨?_, hhigh⟩) fun d hd => ?_
  · have hfar := hl.far (mem_cons_of_mem c hd)
    rw [hm, Mem.size_setPtr _ _ (.inr hfar), Mem.size_setSize_far _ _ hfar]
  · show h'.mem.size b.addr = b.size + c.size
    rw [hm, Mem.size_setPtr _ _ (.inl rfl), Mem.size_setSize_self _ _ hsum]
  · exact (hl.high b mem_cons_self).1
  · exact .join he (rel_of_pairwise_cons hl.beside (mem_cons_of_mem c hd))
      (rel_of_pairwise_cons hl.tail.beside hd)

/-- The tail of a block becomes a block of its own. -/
theorem split (hl : Laid h (x :: B)) (hn : 0 < n) (hx : n < x.size) (hlt : h.top < 2 ^ 32)
    (htop : h'.top = h.top) (hm : h'.mem =
      (h.mem.setSize x.addr (x.size - n)).setSize (x.addr + HSIZE * (x.size - n)) n) :
    Laid h' (⟨x.addr, x.size - n⟩ :: ⟨x.addr + HSIZE * (x.size - n), n⟩ :: B) := by
  have hsize := hl.size_lt mem_cons_self hlt
  have hhigh := (hl.high x mem_cons_self).2
  have hcut : Block.fin ⟨x.addr, x.size - n⟩ = x.addr + HSIZE * (x.size - n) := rfl
  generalize hy : x.addr + HSIZE * (x.size - n) = y at *
  have hfin : Block.fin ⟨y, n⟩ = x.fin ∧ x.addr + HSIZE ≤ y ∧ y + HSIZE ≤ x.fin := by
    unfold Block.fin
    dsimp only [HSIZE] at hy ⊢
    omega
  have hpart : ∀ d ∈ B, Block.Beside ⟨x.addr, x.size - n⟩ d ∧ Block.Beside ⟨y, n⟩ d := by
    intro d hd
    have := rel_of_pairwise_cons hl.beside hd
    unfold Block.Beside Block.Before at *
    rw [hcut, hfin.1]
    dsimp only [HSIZE] at *
    omega
  have hB : Laid h' B := hl.tail.congr htop fun d hd => by
    rw [hm, Mem.size_setSize_far _ _ (hpart d hd).2.far, Mem.size_setSize_far _ _ (hl.far hd)]
  refine (hB.cons ?_ ?_ fun d hd => (hpart d hd).2).cons ?_ ?_ (forall_mem_cons.2 ⟨?_, ?_⟩)
  · rw [hm]
    exact Mem.size_setSize_self _ _ (by omega)
  · rw [hfin.1, htop]
    exact ⟨hfin.2.2.trans hhigh, hhigh⟩
  · rw [hm, Mem.size_setSize_far _ _ (.inr hfin.2.1)]
    exact Mem.size_setSize_self _ _ (by omega)
  · rw [hcut, htop]
    dsimp only
    omega
  · exact .inl ⟨hfin.2.1, hcut.le⟩
  · exact fun d hd => (hpart d hd).1

/-- A block above all others. -/
theorem grow (hl : Laid h B) (hb : 0 < b.size) (hge : h.top ≤ b.addr) (hlt : b.size < 2 ^ 32)
    (htop : h'.top = b.fin) (hm : h'.mem = h.mem.setSize b.addr b.size) : Laid h' (b :: B) := by
  have hbelow : ∀ d ∈ B, d.Before b := fun d hd =>
    ⟨(hl.high d hd).1.trans hge, (hl.high d hd).2.trans hge⟩
  have hhead := Block.header_le hb
  have hB : Laid h' B := by
    refine ⟨fun d hd => ?_, fun d hd => htop ▸ ?_, hl.beside⟩
    · rw [hm, Mem.size_setSize_far _ _ (.inr (hbelow d hd).1)]
      exact hl.size d hd
    · have := hl.high d hd
      omega
  refine hB.cons ?_ ⟨htop ▸ hhead, htop.ge⟩ fun d hd => .inr (hbelow d hd)
  rw [hm]
  exact Mem.size_setSize_self _ _ hlt

end Laid

variable {base : Nat} {h : Heap} {F L : List Block}

theorem Cells.laid (hc : Cells base h F L) : Laid h (nodes base F ++ L) := by
  refine ⟨fun b hb => ?_, fun b hb => ?_, pairwise_cons.2 ⟨fun b hb => ?_,
    pairwise_append.2 ⟨?_, ?_, fun b hb c hc' => ?_⟩⟩⟩
  · rcases mem_cons.1 hb with rfl | hb
    · exact hc.base_size
    · exact hc.size b hb
  · rcases mem_cons.1 hb with rfl | hb
    · exact ⟨hc.base_lt, (Nat.le_add_right base 8).trans hc.base_lt⟩
    · exact ⟨(Block.header_le (hc.pos b hb)).trans (hc.high b hb), hc.high b hb⟩
  · exact .inl ⟨hc.low b hb, (Nat.le_add_right base 8).trans (hc.low b hb)⟩
  · refine hc.sorted.imp_of_mem fun hb _ hlt => .inl ⟨?_, hlt.le⟩
    exact (Block.header_le (hc.pos _ (mem_append_left L hb))).trans hlt.le
  · exact hc.apart.imp_of_mem fun hb hc' h => h.beside (hc.pos _ (mem_append_right F hb))
      (hc.pos _ (mem_append_right F hc'))
  · exact (hc.live c hc' b hb).symm.beside (hc.pos b (mem_append_left L hb))
      (hc.pos c (mem_append_right F hc'))

theorem Cells.above (hc : Cells base h F L) {b : Block} (hb : b ∈ F ++ L) : base < b.addr :=
  (Nat.lt_add_of_pos_right (by decide)).trans_le (hc.low b hb)

theorem Cells.nodes_sorted (hc : Cells base h F L) :
    (nodes base F).Pairwise fun b c => b.fin < c.addr := by
  exact pairwise_cons.2 ⟨fun d hd => hc.above (mem_append_left L hd), hc.sorted⟩

theorem Laid.cells (hl : Laid h (nodes base F ++ L)) (hbase : 0 < base) (hlt : h.top < 2 ^ 32)
    (hpos : ∀ b ∈ F ++ L, 0 < b.size) (hlow : ∀ b ∈ L, base < b.addr)
    (hs : (nodes base F).Pairwise fun b c => b.fin < c.addr) : Cells base h F L := by
  obtain ⟨hnode, hB⟩ := pairwise_cons.1 hl.beside
  obtain ⟨-, hL, hlive⟩ := pairwise_append.1 hB
  obtain ⟨hfree, hF⟩ := pairwise_cons.1 hs
  refine ⟨hbase, (hl.high _ mem_cons_self).1, hlt, hpos, fun b hb => ?_,
    fun b hb => (hl.high b (mem_cons_of_mem _ hb)).2, fun b hb => hl.size b (mem_cons_of_mem _ hb),
    hl.size _ mem_cons_self, hF, hL.imp Block.Beside.apart,
    fun b hb c hc => (hlive c hc b hb).apart.symm⟩
  have hgt : base < b.addr := by
    rcases mem_append.1 hb with hb | hb
    · exact hfree b hb
    · exact hlow b hb
  rcases hnode b hb with hlt | hlt
  · exact hlt.1
  · have := hlt.1
    dsimp only [HSIZE] at this
    omega

end Xv6.Malloc
