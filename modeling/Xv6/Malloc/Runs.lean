import Xv6.Lib.System
import Xv6.Malloc.Alloc

/-!
# Programs that use the heap

A program calls `malloc` and `free` and stores into the bytes it was given.  It frees what it has
got and not freed yet.  Every call of `malloc` may meet another answer of `sbrk`.
-/

namespace Xv6.Malloc

open Function List

/-! ## Fuel -/

/-- One more step of fuel does not change a result. -/
def Steady {α : Type} (f : Nat → Option α) : Prop := ∀ n r, f n = some r → f (n + 1) = some r

theorem Steady.returns {α : Type} {f : Nat → Option α} (hf : Steady f) {n : Nat} {r : α}
    (h : f n = some r) : Returns f r := by
  refine ⟨n, fun fuel hle => ?_⟩
  induction hle with
  | refl => exact h
  | step _ ih => exact hf _ _ ih

theorem Returns.unique {α : Type} {f : Nat → Option α} {r r' : α} (h : Returns f r)
    (h' : Returns f r') : r = r' := by
  obtain ⟨n, hn⟩ := h
  obtain ⟨n', hn'⟩ := h'
  have h1 := hn (max n n') (Nat.le_max_left ..)
  have h2 := hn' (max n n') (Nat.le_max_right ..)
  rw [h1] at h2
  exact Option.some.inj h2

theorem freeLoop_steady (m : Mem) (bp p : Nat) : Steady fun fuel => freeLoop m bp fuel p := by
  intro n r
  induction n generalizing p with
  | zero =>
    intro h
    cases h
  | succ n ih =>
    intro h
    unfold freeLoop at h ⊢
    dsimp only at h ⊢
    split at h
    · rename_i hc
      rw [if_pos hc]
      exact h
    · rename_i hc
      rw [if_neg hc]
      split at h
      · rename_i hc'
        rw [if_pos hc']
        exact h
      · rename_i hc'
        rw [if_neg hc']
        exact ih _ h

theorem free_steady (h : Heap) (ap : Nat) : Steady fun fuel => free fuel h ap := by
  intro n r hr
  obtain ⟨p, hp, hr⟩ := Option.bind_eq_some_iff.1 hr
  exact Option.bind_eq_some_iff.2 ⟨p, freeLoop_steady _ _ _ n p hp, hr⟩

theorem morecore_steady (k : Sbrk) (h : Heap) (nu : Nat) :
    Steady fun fuel => morecore k fuel h nu := by
  intro n r hr
  dsimp only [morecore] at hr ⊢
  split at hr
  · exact hr
  · obtain ⟨h', hh, hr⟩ := Option.bind_eq_some_iff.1 hr
    exact Option.bind_eq_some_iff.2 ⟨h', free_steady _ _ n h' hh, hr⟩

theorem mallocLoop_steady (k : Sbrk) (nunits : Nat) (h : Heap) (prevp p : Nat) :
    Steady fun fuel => mallocLoop k nunits fuel h prevp p := by
  intro n r
  induction n generalizing h prevp p with
  | zero =>
    intro hr
    cases hr
  | succ n ih =>
    intro hr
    unfold mallocLoop at hr ⊢
    dsimp only at hr ⊢
    split at hr
    · rename_i hc
      rw [if_pos hc]
      exact hr
    · rename_i hc
      rw [if_neg hc]
      split at hr
      · rename_i hc'
        rw [if_pos hc']
        obtain ⟨x, hx, hr⟩ := Option.bind_eq_some_iff.1 hr
        refine Option.bind_eq_some_iff.2 ⟨x, morecore_steady k h nunits n x hx, ?_⟩
        split at hr
        · rename_i hz
          rw [if_pos hz]
          exact hr
        · rename_i hz
          rw [if_neg hz]
          exact ih _ _ _ hr
      · rename_i hc'
        rw [if_neg hc']
        exact ih _ _ _ hr

theorem malloc_steady (base : Nat) (k : Sbrk) (h : Heap) (nbytes : Nat) :
    Steady fun fuel => malloc base k fuel h nbytes :=
  mallocLoop_steady k (units nbytes) _ _ _

/-! ## Runs -/

/-- What `malloc(n)` has returned. -/
structure Request where
  ap : Nat
  n : Nat
deriving DecidableEq

structure State where
  heap : Heap
  /-- handed out and not freed -/
  live : List Request

/-- The unit count times eight stays below `2 ^ 31`. -/
def Small (n : Nat) : Prop := ((n + 7) / 8 + 1) * 8 < 2 ^ 31

def Heap.store (h : Heap) (a : Nat) (v : UInt8) : Heap :=
  { h with mem := update h.mem a v }

inductive Act
  | malloc (n : Nat)
  | free (ap : Nat)
  | store (a : Nat) (v : UInt8)

inductive Step (base : Nat) : State → Act → State → Prop
  | malloc {s : State} {n p : Nat} {h : Heap} (k : Sbrk) : Small n →
      Returns (fun fuel => malloc base k fuel s.heap n) (h, p) → p ≠ 0 →
      Step base s (.malloc n) ⟨h, ⟨p, n⟩ :: s.live⟩
  | refuse {s : State} {n : Nat} {h : Heap} (k : Sbrk) : Small n →
      Returns (fun fuel => malloc base k fuel s.heap n) (h, 0) →
      Step base s (.malloc n) ⟨h, s.live⟩
  | free {s : State} {q : Request} {l₁ l₂ : List Request} {h : Heap} :
      s.live = l₁ ++ q :: l₂ → Returns (fun fuel => free fuel s.heap q.ap) h →
      Step base s (.free q.ap) ⟨h, l₁ ++ l₂⟩
  | store {s : State} {q : Request} {a : Nat} (v : UInt8) : q ∈ s.live → q.ap ≤ a →
      a < q.ap + q.n → Step base s (.store a v) ⟨s.heap.store a v, s.live⟩

/-- The program starts with `base` and `freep` zero, in its static data. -/
def program (base : Nat) : System State Act where
  init s := s.heap.freep = 0 ∧ s.live = [] ∧ 0 < base ∧ base + HSIZE ≤ s.heap.top ∧
    s.heap.top < 2 ^ 32
  step := Step base

/-! ## The invariant -/

variable {base : Nat} {s s' : State} {F L : List Block} {a : Act} {q : Request} {b d : Block}

/-- The block `b` is behind a pointer that was returned, and has room. -/
structure Serves (b : Block) (q : Request) : Prop where
  ap : q.ap = b.addr + HSIZE
  room : q.n ≤ HSIZE * (b.size - 1)

/-- Memory holds the circle, and the blocks outside it are the ones that were returned. -/
structure Held (base : Nat) (s : State) (F L : List Block) : Prop where
  inv : Inv base s.heap F L
  serves : List.Forall₂ Serves L s.live

inductive Kept (base : Nat) (s : State) : Prop
  | fresh : s.heap.freep = 0 → s.live = [] → 0 < base → base + HSIZE ≤ s.heap.top →
      s.heap.top < 2 ^ 32 → Kept base s
  | held (F L : List Block) : Held base s F L → Kept base s

theorem Kept.start (hk : Kept base s) : ∃ F L, Held base ⟨start base s.heap, s.live⟩ F L := by
  cases hk with
  | fresh hf hl hbase htop hlt =>
    refine ⟨[], [], start_inv hbase htop hlt hf, ?_⟩
    rw [hl]
    exact .nil
  | held F L hh =>
    refine ⟨F, L, ?_, hh.serves⟩
    rw [hh.inv.start_eq]
    exact hh.inv

theorem Kept.malloc (hk : Kept base s) (k : Sbrk) {n : Nat} (hn : Small n) :
    ∃ r, Returns (fun fuel => malloc base k fuel s.heap n) r ∧
      (r.2 = 0 ∧ Kept base ⟨r.1, s.live⟩ ∨ r.2 ≠ 0 ∧ Kept base ⟨r.1, ⟨r.2, n⟩ :: s.live⟩) := by
  obtain ⟨F, L, hh⟩ := hk.start
  obtain ⟨r, hg, hr⟩ := malloc_spec k hh.inv hn
  refine ⟨r, hr, ?_⟩
  rcases hg.inv with ⟨hz, F', hi⟩ | ⟨F', b, hb, hp, hi⟩
  · exact .inl ⟨hz, .held F' L ⟨hi, hh.serves⟩⟩
  · refine .inr ⟨?_, .held F' (b :: L) ⟨hi, .cons ⟨hp, ?_⟩ hh.serves⟩⟩
    · rw [hp]
      dsimp only [HSIZE]
      omega
    · rw [hb]
      exact (units_spec hn).2.2

/-- The block behind a pointer, with the others around it. -/
theorem Held.split (hh : Held base s F L) {l₁ l₂ : List Request} (hl : s.live = l₁ ++ q :: l₂) :
    ∃ L₁ b L₂, L = L₁ ++ b :: L₂ ∧ Serves b q ∧ Inv base s.heap F (b :: (L₁ ++ L₂)) ∧
      List.Forall₂ Serves (L₁ ++ L₂) (l₁ ++ l₂) := by
  have hs := hh.serves
  rw [hl] at hs
  have h₁ := List.forall₂_take_append L l₁ _ hs
  obtain ⟨b, L₂, hb, h₂, hdrop⟩ :=
    List.forall₂_cons_right_iff.1 (List.forall₂_drop_append L l₁ _ hs)
  have hL : L = L.take l₁.length ++ b :: L₂ := by rw [← hdrop, take_append_drop]
  refine ⟨L.take l₁.length, b, L₂, hL, hb, hh.inv.perm ?_, rel_append h₁ h₂⟩
  exact (List.Perm.of_eq hL).trans perm_middle

theorem Kept.free (hk : Kept base s) {l₁ l₂ : List Request} (hl : s.live = l₁ ++ q :: l₂) :
    ∃ h, Returns (fun fuel => free fuel s.heap q.ap) h ∧ Kept base ⟨h, l₁ ++ l₂⟩ := by
  cases hk with
  | fresh _ hnil =>
    rw [hnil] at hl
    exact absurd hl.symm (by simp)
  | held F L hh =>
    obtain ⟨L₁, b, L₂, -, hb, hi, hs⟩ := hh.split hl
    obtain ⟨h, F', hi', -, -, hfree⟩ := free_spec hi
    refine ⟨h, ⟨2 * F.length + 3, fun fuel hfuel => ?_⟩, .held F' (L₁ ++ L₂) ⟨hi', hs⟩⟩
    rw [hb.ap]
    exact hfree fuel hfuel

/-! ## Stores -/

theorem word_update {m : Mem} {a p : Nat} {v : UInt8} (h : a < p ∨ p + 4 ≤ a) :
    word (update m a v) p = word m p := by
  have hp : p ≠ a := by omega
  have hne : ∀ c < 4, p + c ≠ a := fun c hc => by omega
  unfold word
  rw [update_of_ne hp, update_of_ne (hne 1 (by decide)),
    update_of_ne (hne 2 (by decide)), update_of_ne (hne 3 (by decide))]

theorem Mem.ptr_update {m : Mem} {a p : Nat} {v : UInt8} (h : a < p ∨ p + HSIZE ≤ a) :
    Mem.ptr (update m a v) p = m.ptr p :=
  word_update (by dsimp only [HSIZE] at h; omega)

theorem Mem.size_update {m : Mem} {a p : Nat} {v : UInt8} (h : a < p ∨ p + HSIZE ≤ a) :
    Mem.size (update m a v) p = m.size p :=
  word_update (by dsimp only [HSIZE] at h; omega)

/-- A byte of a block that is handed out is in no header. -/
theorem Inv.store {h : Heap} (hi : Inv base h F (b :: L)) {a : Nat} (v : UInt8)
    (hlo : b.addr + HSIZE ≤ a) (hhi : a < b.fin) : Inv base (h.store a v) F (b :: L) := by
  have hhead : ∀ c ∈ nodes base F ++ b :: L, a < c.addr ∨ c.addr + HSIZE ≤ a := by
    intro c hc
    rcases mem_cons.1 (perm_middle.mem_iff.1 hc) with rfl | hc
    · exact .inr hlo
    · rcases rel_of_pairwise_cons (hi.laid.perm perm_middle).beside hc with hlt | hlt
      · exact .inl (hhi.trans_le hlt.2)
      · exact .inr (hlt.1.trans ((Nat.le_add_right ..).trans hlo))
  have hl : Laid (h.store a v) (nodes base F ++ b :: L) :=
    hi.laid.congr rfl fun c hc => Mem.size_update (hhead c hc)
  refine ⟨hl.cells hi.base_pos hi.top_lt hi.pos (fun c hc => hi.above (mem_append_right F hc))
    hi.nodes_sorted, hi.links.congr fun p hp => ?_, hi.freep⟩
  have hp : p ∈ (nodes base F).map Block.addr := hp
  obtain ⟨c, hc, rfl⟩ := mem_map.1 hp
  exact Mem.ptr_update (hhead c (mem_append_left _ hc))

theorem Kept.store (hk : Kept base s) (hq : q ∈ s.live) {a : Nat} (v : UInt8) (hlo : q.ap ≤ a)
    (hhi : a < q.ap + q.n) : Kept base ⟨s.heap.store a v, s.live⟩ := by
  cases hk with
  | fresh _ hnil =>
    rw [hnil] at hq
    exact absurd hq not_mem_nil
  | held F L hh =>
    obtain ⟨l₁, l₂, hl⟩ := append_of_mem hq
    obtain ⟨L₁, b, L₂, rfl, hserve, hi, -⟩ := hh.split hl
    have hpos := hi.pos b (mem_append_right F mem_cons_self)
    have hhi' : a < b.fin := by
      have hap := hserve.ap
      have hroom := hserve.room
      unfold Block.fin
      dsimp only [HSIZE] at hap hroom ⊢
      omega
    refine .held F (L₁ ++ b :: L₂) ⟨?_, hh.serves⟩
    exact (hi.store v (hserve.ap ▸ hlo) hhi').perm perm_middle.symm

theorem Kept.step (hk : Kept base s) (h : Step base s a s') : Kept base s' := by
  cases h with
  | malloc k hn hr hp =>
    obtain ⟨r, hr', hcase⟩ := hk.malloc k hn
    obtain rfl := hr'.unique hr
    rcases hcase with ⟨hz, -⟩ | ⟨-, hk'⟩
    · exact absurd hz hp
    · exact hk'
  | refuse k hn hr =>
    obtain ⟨r, hr', hcase⟩ := hk.malloc k hn
    obtain rfl := hr'.unique hr
    rcases hcase with ⟨-, hk'⟩ | ⟨hne, -⟩
    · exact hk'
    · exact absurd rfl hne
  | free hl hr =>
    obtain ⟨h, hr', hk'⟩ := hk.free hl
    obtain rfl := hr'.unique hr
    exact hk'
  | store v hq hlo hhi => exact hk.store hq v hlo hhi

theorem kept_of_reach (h : (program base).Reach s) : Kept base s :=
  System.Reach.invariant (S := program base) (P := Kept base)
    (fun _ ⟨hf, hl, hbase, htop, hlt⟩ => .fresh hf hl hbase htop hlt)
    (fun _ _ _ _ hk hstep => hk.step hstep) h

/-! ## Integrity -/

/-- The block whose header is at `p`. -/
def Heap.block (h : Heap) (p : Nat) : Block := ⟨p, h.mem.size p⟩

/-- The free list is `base` and `F`. -/
structure Integrity (base : Nat) (s : State) (F : List Nat) : Prop where
  circle : Circle s.heap.mem.ptr (base :: F)
  freep : s.heap.freep ∈ base :: F
  /-- the only step down is the one back to `base` -/
  sorted : (base :: F).Pairwise (· < ·)
  /-- free blocks neither overlap nor touch -/
  coalesced : F.Pairwise fun p q => (s.heap.block p).fin < q
  beyond : ∀ p ∈ F, base + HSIZE ≤ p
  live_apart : s.live.Pairwise fun q r =>
    (s.heap.block (q.ap - HSIZE)).Apart (s.heap.block (r.ap - HSIZE))
  free_apart : ∀ q ∈ s.live, ∀ p ∈ base :: F, (s.heap.block (q.ap - HSIZE)).Apart (s.heap.block p)
  /-- the request is within its block, behind the header -/
  room : ∀ q ∈ s.live, base + 2 * HSIZE ≤ q.ap ∧ q.ap + q.n ≤ (s.heap.block (q.ap - HSIZE)).fin

theorem Held.block (hh : Held base s F L) (hb : b ∈ F ++ L) : s.heap.block b.addr = b := by
  unfold Heap.block
  rw [hh.inv.size b hb]

theorem Serves.addr (h : Serves b q) : q.ap - HSIZE = b.addr := by
  rw [h.ap]
  exact Nat.add_sub_cancel ..

theorem Held.serves_mem (hh : Held base s F L) (hq : q ∈ s.live) : ∃ b ∈ L, Serves b q := by
  obtain ⟨l₁, l₂, hl⟩ := append_of_mem hq
  obtain ⟨L₁, b, L₂, rfl, hb, -, -⟩ := hh.split hl
  exact ⟨b, by simp, hb⟩

/-- What holds of all pairs of blocks holds of the pointers to them. -/
theorem pairwise_serves {R : Nat → Nat → Prop} {live : List Request}
    (hs : List.Forall₂ Serves L live) (h : L.Pairwise fun b c => R b.addr c.addr) :
    live.Pairwise fun q r => R (q.ap - HSIZE) (r.ap - HSIZE) := by
  have hmap : live.map (fun q => q.ap - HSIZE) = L.map Block.addr := by
    induction hs with
    | nil => rfl
    | cons hb _ ih => rw [map_cons, map_cons, hb.addr, ih h.of_cons]
  rw [← pairwise_map (f := fun q : Request => q.ap - HSIZE), hmap, pairwise_map]
  exact h

theorem Held.integrity (hh : Held base s F L) : Integrity base s (F.map Block.addr) where
  circle := hh.inv.links
  freep := hh.inv.freep
  sorted := hh.inv.addr_sorted
  coalesced := by
    rw [pairwise_map]
    refine hh.inv.sorted.imp_of_mem fun hb _ hlt => ?_
    rw [hh.block (mem_append_left L hb)]
    exact hlt
  beyond p hp := by
    obtain ⟨b, hb, rfl⟩ := mem_map.1 hp
    exact hh.inv.low b (mem_append_left L hb)
  live_apart := by
    refine pairwise_serves hh.serves (R := fun p r => (s.heap.block p).Apart (s.heap.block r)) ?_
    refine hh.inv.apart.imp_of_mem fun hb hc happ => ?_
    rw [hh.block (mem_append_right F hb), hh.block (mem_append_right F hc)]
    exact happ
  free_apart q hq p hp := by
    obtain ⟨b, hb, hserve⟩ := hh.serves_mem hq
    rw [hserve.addr, hh.block (mem_append_right F hb)]
    rcases mem_cons.1 hp with rfl | hp
    · right
      have hlow := hh.inv.low b (mem_append_right F hb)
      show p + HSIZE * s.heap.mem.size p ≤ b.addr
      rw [hh.inv.base_size]
      omega
    · obtain ⟨d, hd, rfl⟩ := mem_map.1 hp
      rw [hh.block (mem_append_left L hd)]
      exact hh.inv.live b hb d hd
  room q hq := by
    obtain ⟨b, hb, hserve⟩ := hh.serves_mem hq
    have hlow := hh.inv.low b (mem_append_right F hb)
    have hpos := hh.inv.pos b (mem_append_right F hb)
    have hroom := hserve.room
    rw [hserve.addr, hh.block (mem_append_right F hb), hserve.ap]
    unfold Block.fin
    dsimp only [HSIZE] at hlow hroom ⊢
    omega

/-- **Heap integrity.**  In every state a program gets to, the free list is a circle through `base`
in the order of addresses, free blocks are apart and do not touch, the blocks handed out are apart
from each other and from the free ones and have room for what was asked, and every further call
returns. -/
theorem heap_integrity (base : Nat) (s : State) (h : (program base).Reach s) :
    (s.heap.freep = 0 ∧ s.live = [] ∨ ∃ F, Integrity base s F) ∧
    (∀ k n, Small n → ∃ r, Returns (fun fuel => malloc base k fuel s.heap n) r) ∧
    ∀ q ∈ s.live, ∃ h', Returns (fun fuel => free fuel s.heap q.ap) h' := by
  have hk := kept_of_reach h
  refine ⟨?_, fun k n hn => ?_, fun q hq => ?_⟩
  · cases hk with
    | fresh hf hl => exact .inl ⟨hf, hl⟩
    | held F L hh => exact .inr ⟨F.map Block.addr, hh.integrity⟩
  · obtain ⟨r, hr, -⟩ := hk.malloc k hn
    exact ⟨r, hr⟩
  · obtain ⟨l₁, l₂, hl⟩ := append_of_mem hq
    obtain ⟨h', hr, -⟩ := hk.free hl
    exact ⟨h', hr⟩

/-! ## A computed run -/

/-- `sbrk` moves the break while there is room for it. -/
def breakSbrk : Sbrk where
  call top n := if top + n < 2 ^ 32 then some top else none
  fresh top n a h := by
    split at h
    · cases h
      exact ⟨Nat.le_refl _, ‹_›⟩
    · cases h

instance (n : Nat) : Decidable (Small n) := inferInstanceAs (Decidable (_ < _))

/-- The request or, for `free`, the place of the pointer among those that are live. -/
inductive Move
  | malloc (n : Nat)
  | free (i : Nat)

def State.next (base fuel : Nat) (s : State) : Move → Option State
  | .malloc n => do
    let (h, p) ← malloc base breakSbrk fuel s.heap n
    if Small n ∧ p ≠ 0 then some ⟨h, ⟨p, n⟩ :: s.live⟩ else none
  | .free i => do
    let q ← s.live[i]?
    let h ← free fuel s.heap q.ap
    some ⟨h, s.live.take i ++ s.live.drop (i + 1)⟩

theorem State.next_step {base fuel : Nat} {s s' : State} {v : Move}
    (h : s.next base fuel v = some s') : ∃ a, (program base).step s a s' := by
  cases v with
  | malloc n =>
    obtain ⟨⟨h', p⟩, hr, h⟩ := Option.bind_eq_some_iff.1 h
    dsimp only at h
    split at h
    · rename_i hc
      cases h
      exact ⟨_, .malloc breakSbrk hc.1 ((malloc_steady _ _ _ _).returns hr) hc.2⟩
    · cases h
  | free i =>
    obtain ⟨q, hq, h⟩ := Option.bind_eq_some_iff.1 h
    obtain ⟨h', hr, h⟩ := Option.bind_eq_some_iff.1 h
    cases h
    obtain ⟨hi, rfl⟩ := List.getElem?_eq_some_iff.1 hq
    refine ⟨_, .free ?_ ((free_steady _ _).returns hr)⟩
    rw [getElem_cons_drop, take_append_drop]

/-- Zeroed static data up to `4096`. -/
def blankState : State := ⟨⟨fun _ => 0, 0, 4096⟩, []⟩

theorem heap_integrity_run :
    ∃ s, (program 64).Reach s ∧ s.live.map Request.n = [100, 30] ∧ ∃ F, Integrity 64 s F := by
  have hrun : ((System.follow (State.next 64 10) [.malloc 30, .malloc 8, .malloc 100, .free 1]
      blankState).map fun s => (s.live.map Request.n, s.heap.freep)) = some ([100, 30], 4096) := by
    decide +kernel
  obtain ⟨s, hs, he⟩ := Option.map_eq_some_iff.1 hrun
  have hreach : (program 64).Reach s :=
    System.Reach.follow (fun _ _ _ h => State.next_step h)
      (.init ⟨rfl, rfl, by decide, by decide, by decide⟩) hs
  refine ⟨s, hreach, congrArg Prod.fst he, ?_⟩
  rcases (heap_integrity 64 s hreach).1 with ⟨hz, -⟩ | hF
  · have hf : s.heap.freep = 4096 := congrArg Prod.snd he
    omega
  · exact hF

end Xv6.Malloc
