import Xv6.Vm.Model

/-!
# Who owns a page

Every page has one role: it is free, a page directory, the table of a directory for one index, the
page that a directory maps at a user page number, or held by the kernel for something else.  Two
entries that name the same page would give it two roles, so an assignment of roles that fits all
entries says that no page is owned twice.

`Heap` is the allocator's part: the free list is threaded through the free pages, and `Took` counts
the calls of `kalloc`.
-/

namespace Xv6.Vm

open Function List

/-- `user d v`: the page that the directory `d` maps at the user page number `v`. -/
inductive Role
  /-- never given to the allocator: the kernel's image, devices -/
  | outside
  | free
  | dir
  | table (d i : Nat)
  | user (d v : Nat)
  /-- a kernel stack, a pipe, a page on its way -/
  | held
deriving DecidableEq

structure Heap [Layout] (s : Mem) (own : Nat → Role) (l : List Nat) : Prop where
  chain : Chain s.next s.freelist l
  free : ∀ f, own f = .free ↔ f ∈ l
  valid : ∀ f, own f ≠ .outside → ¬ kfreeBad f

/-! ## Stores -/

namespace Mem

variable (s : Mem) (f : Nat)

theorem setPage_self (p : Fs.Bytes) : (s.setPage f p).page f = p := update_self ..

theorem setPage_of_ne (p : Fs.Bytes) {g : Nat} (h : g ≠ f) : (s.setPage f p).page g = s.page g :=
  update_of_ne h ..

theorem entry_lt (i : Nat) : s.entry f i < 2 ^ 32 := by
  have h0 := (s.page f (4 * i)).toNat_lt
  have h1 := (s.page f (4 * i + 1)).toNat_lt
  have h2 := (s.page f (4 * i + 2)).toNat_lt
  have h3 := (s.page f (4 * i + 3)).toNat_lt
  unfold entry Fs.Bytes.word
  omega

theorem entry_setEntry_self (i : Nat) {w : Nat} (hw : w < 2 ^ 32) :
    (s.setEntry f i w).entry f i = w := by
  unfold setEntry entry
  rw [setPage_self, Fs.Bytes.word_putWord_self _ _ hw]

theorem entry_setEntry_of_ne {i j : Nat} (w : Nat) (h : j ≠ i) :
    (s.setEntry f i w).entry f j = s.entry f j := by
  unfold setEntry entry
  rw [setPage_self, Fs.Bytes.word_putWord_of_ne _ _ h]

theorem entry_setEntry_page {g : Nat} (h : g ≠ f) (i j w : Nat) :
    (s.setEntry f i w).entry g j = s.entry g j := by
  unfold setEntry entry
  rw [s.setPage_of_ne f _ h]

theorem entry_of_page {s s' : Mem} {f : Nat} (h : s'.page f = s.page f) (i : Nat) :
    s'.entry f i = s.entry f i := by
  unfold entry
  rw [h]

theorem next_of_page {s s' : Mem} {f : Nat} (h : s'.page f = s.page f) : s'.next f = s.next f := by
  unfold next
  rw [entry_of_page h]

theorem entry_memset_zero (i : Nat) : (s.memset f 0).entry f i = 0 := by
  unfold memset entry
  rw [setPage_self, Fs.Bytes.word_zero]

/-- A call of `kalloc` is over. -/
def pass : Mem := { s with deny := fun n => s.deny (n + 1) }

/-- The state after `kalloc` has returned the page `f`. -/
def popped : Mem := { s.pass with freelist := s.next f }

/-- The state after `kfree`. -/
def freed : Mem := { (s.memset f 1).setEntry f 0 (ptr s.freelist) with freelist := some f }

theorem freed_page_of_ne {g : Nat} (h : g ≠ f) : (s.freed f).page g = s.page g := by
  show ((s.memset f 1).setEntry f 0 (ptr s.freelist)).page g = s.page g
  unfold setEntry memset
  rw [setPage_of_ne _ _ _ h, setPage_of_ne _ _ _ h]

theorem freed_next (h : ∀ r, s.freelist = some r → PGSIZE * r < PHYSTOP) :
    (s.freed f).next f = s.freelist := by
  have hlt : ptr s.freelist < 2 ^ 32 := by
    cases hl : s.freelist with
    | none => exact Nat.two_pow_pos 32
    | some r =>
      have hr := h r hl
      dsimp only [ptr, PGSIZE, KERNBASE, PHYSTOP] at hr ⊢
      omega
  have hentry : (s.freed f).entry f 0 = ptr s.freelist :=
    entry_setEntry_self (s.memset f 1) f 0 hlt
  unfold next
  rw [hentry]
  cases hl : s.freelist with
  | none => rfl
  | some r =>
    have hpos : ptr (some r) ≠ 0 := by
      dsimp only [ptr, PGSIZE, KERNBASE]
      omega
    rw [if_neg hpos]
    dsimp only [ptr, PGSIZE, KERNBASE]
    congr 1
    omega

end Mem

/-! ## The allocator -/

theorem discard_ok {α : Type} {m : VM α} {a : α} {s s' : Mem} (h : m s = .ok (a, s')) :
    (discard m : VM Unit) s = .ok ((), s') := by
  show (m >>= fun _ => pure () : VM Unit) s = _
  rw [seq_ok h]
  rfl

theorem kalloc_none {s : Mem} (hf : s.deny 0 = true ∨ s.freelist = none) :
    kalloc s = .ok (none, s.pass) := by
  unfold kalloc
  dsimp only
  split
  · next r hl =>
    have hd : s.deny 0 = true := hf.resolve_right (by rw [hl]; nofun)
    rw [if_pos hd]
    rfl
  · rfl

theorem kalloc_some {s : Mem} {f : Nat} (hd : s.deny 0 = false) (hl : s.freelist = some f) :
    kalloc s = .ok (some f, s.popped f) := by
  unfold kalloc
  dsimp only
  split
  · next r hr =>
    cases hr.symm.trans hl
    rw [hd, if_neg Bool.false_ne_true]
    rfl
  · next hr => cases hr.symm.trans hl

section
variable [Layout] {s s' : Mem} {own own' : Nat → Role} {l : List Nat} {f : Nat}

/-- Stores into pages that are not free, and other roles of those, do not matter. -/
theorem Heap.congr (h : Heap s own l) (hlist : s'.freelist = s.freelist)
    (hpage : ∀ g ∈ l, s'.page g = s.page g) (hown : ∀ g, own' g = .free ↔ own g = .free)
    (hout : ∀ g, own' g ≠ .outside → own g ≠ .outside) : Heap s' own' l := by
  constructor
  · rw [hlist]
    exact h.chain.congr fun g hg => Mem.next_of_page (hpage g hg)
  · intro g
    rw [hown g]
    exact h.free g
  · intro g hg
    exact h.valid g (hout g hg)

theorem Heap.setPage (h : Heap s own l) (hf : own f ≠ .free) (p : Fs.Bytes) :
    Heap (s.setPage f p) own l := by
  refine h.congr rfl (fun g hg => ?_) (fun _ => Iff.rfl) fun _ => id
  apply s.setPage_of_ne
  rintro rfl
  exact hf ((h.free g).2 hg)

/-- A page that is not free gets another role. -/
theorem Heap.assign (h : Heap s own l) (hf : own f ≠ .free) (hout : own f ≠ .outside) {r : Role}
    (hr : r ≠ .free) : Heap s (update own f r) l := by
  refine h.congr rfl (fun _ _ => rfl) (fun g => ?_) fun g hg => ?_
  · by_cases he : g = f
    · rw [he, update_self]
      exact ⟨fun h => absurd h hr, fun h => absurd h hf⟩
    · rw [update_of_ne he]
  · by_cases he : g = f
    · rw [he]
      exact hout
    · rwa [update_of_ne he] at hg

theorem Heap.pass (h : Heap s own l) : Heap s.pass own l :=
  h.congr rfl (fun _ _ => rfl) (fun _ => Iff.rfl) fun _ => id

/-- The head of the list is taken. -/
theorem Heap.popped (h : Heap s own (f :: l)) : Heap (s.popped f) (update own f .held) l := by
  have hnd := nodup_cons.1 h.chain.nodup
  constructor
  · exact h.chain.2
  · intro g
    by_cases he : g = f
    · rw [he, update_self]
      exact ⟨nofun, fun hm => absurd hm hnd.1⟩
    · rw [update_of_ne he, h.free g, mem_cons]
      exact ⟨fun hm => hm.resolve_left he, .inr⟩
  · intro g hg
    by_cases he : g = f
    · subst he
      exact h.valid g (by rw [(h.free g).2 mem_cons_self]; nofun)
    · rw [update_of_ne he] at hg
      exact h.valid g hg

/-- The next call of `kalloc` fails. -/
def Mem.Dry (s : Mem) (l : List Nat) : Prop := s.deny 0 = true ∨ l = []

theorem kalloc_cases (h : Heap s own l) :
    (s.Dry l ∧ kalloc s = .ok (none, s.pass)) ∨
    ∃ f l', l = f :: l' ∧ s.deny 0 = false ∧ kalloc s = .ok (some f, s.popped f) ∧
      Heap (s.popped f) (update own f .held) l' := by
  cases l with
  | nil => exact .inl ⟨.inr rfl, kalloc_none (.inr h.chain)⟩
  | cons f l' =>
    cases hd : s.deny 0 with
    | true => exact .inl ⟨.inl hd, kalloc_none (.inl hd)⟩
    | false => exact .inr ⟨f, l', rfl, rfl, kalloc_some hd h.chain.1, h.popped⟩

theorem kfree_eq (hf : ¬ kfreeBad f) : kfree f s = .ok ((), s.freed f) := by
  show (if kfreeBad f then _ else _ : VM Unit) s = _
  rw [if_neg hf]
  rfl

/-- A page that has a role is put in front of the list. -/
theorem Heap.freed (h : Heap s own l) (hf : own f ≠ .free) (hout : own f ≠ .outside) :
    Heap (s.freed f) (update own f .free) (f :: l) := by
  have hne : ∀ g ∈ l, g ≠ f := by
    rintro g hg rfl
    exact hf ((h.free g).2 hg)
  constructor
  · refine ⟨rfl, ?_⟩
    rw [s.freed_next f fun r hr => ?_]
    · exact h.chain.congr fun g hg => Mem.next_of_page (s.freed_page_of_ne f (hne g hg))
    · have hm : r ∈ l := mem_of_head? (by rw [← h.chain.head_eq, hr])
      have := h.valid r (by rw [(h.free r).2 hm]; nofun)
      unfold kfreeBad at this
      omega
  · intro g
    by_cases he : g = f
    · rw [he, update_self]
      exact ⟨fun _ => mem_cons_self, fun _ => rfl⟩
    · rw [update_of_ne he, h.free g, mem_cons]
      exact ⟨.inr, fun hm => hm.resolve_left he⟩
  · intro g hg
    by_cases he : g = f
    · rw [he]
      exact h.valid f hout
    · rw [update_of_ne he] at hg
      exact h.valid g hg

theorem kfree_spec (h : Heap s own l) (hf : own f ≠ .free) (hout : own f ≠ .outside) :
    kfree f s = .ok ((), s.freed f) ∧ Heap (s.freed f) (update own f .free) (f :: l) :=
  ⟨kfree_eq (h.valid f hout), h.freed hf hout⟩

end

/-! ## Counting the calls -/

/-- `c` calls of `kalloc` have taken the first `c` pages. -/
structure Took (c : Nat) (s : Mem) (l : List Nat) (s' : Mem) (l' : List Nat) : Prop where
  list : l' = l.drop c
  le : c ≤ l.length
  deny : ∀ n, s'.deny n = s.deny (c + n)
  granted : ∀ n < c, s.deny n = false

/-- The call after `n` that succeed is the first one to fail. -/
structure Mem.FirstFail (s : Mem) (l : List Nat) (n : Nat) : Prop where
  le : n ≤ l.length
  granted : ∀ m < n, s.deny m = false
  fails : s.deny n = true ∨ l.length = n

section
variable {s s₁ s' : Mem} {l l₁ l' : List Nat} {a b f : Nat}

theorem Took.refl (s : Mem) (l : List Nat) : Took 0 s l s l :=
  ⟨rfl, Nat.zero_le _, fun n => by rw [Nat.zero_add], nofun⟩

theorem Took.trans (h : Took a s l s₁ l₁) (h' : Took b s₁ l₁ s' l') : Took (a + b) s l s' l' := by
  have hlen : l₁.length = l.length - a := by rw [h.list, length_drop]
  constructor
  · rw [h'.list, h.list, drop_drop]
  · have := h.le
    have := h'.le
    omega
  · intro n
    rw [h'.deny, h.deny, Nat.add_assoc]
  · intro n hn
    by_cases hlt : n < a
    · exact h.granted n hlt
    · have := h'.granted (n - a) (by omega)
      rwa [h.deny, Nat.add_sub_cancel' (by omega)] at this

theorem Took.popped (hd : s.deny 0 = false) : Took 1 s (f :: l) (s.popped f) l := by
  refine ⟨rfl, Nat.succ_le_succ (Nat.zero_le _), fun n => ?_, fun n hn => ?_⟩
  · show s.deny (n + 1) = _
    rw [Nat.add_comm]
  · obtain rfl : n = 0 := by omega
    exact hd

/-- Stores do not call `kalloc`. -/
theorem Took.of_deny (h : Took a s l s₁ l₁) (hd : s'.deny = s₁.deny) : Took a s l s' l₁ :=
  ⟨h.list, h.le, fun n => by rw [hd, h.deny], h.granted⟩

theorem Took.firstFail (h : Took a s l s₁ l₁) (hdry : s₁.Dry l₁) : s.FirstFail l a := by
  refine ⟨h.le, h.granted, ?_⟩
  rcases hdry with hd | hl
  · left
    rwa [h.deny] at hd
  · right
    have hlen := congrArg List.length h.list
    rw [hl, length_drop, length_nil] at hlen
    have := h.le
    omega

theorem Took.firstFail_add (h : Took a s l s₁ l₁) (h' : s₁.FirstFail l₁ b) :
    s.FirstFail l (a + b) := by
  have hlen : l₁.length = l.length - a := by rw [h.list, length_drop]
  have hle := h.le
  have hle' := h'.le
  refine ⟨by omega, fun m hm => ?_, ?_⟩
  · by_cases hma : m < a
    · exact h.granted m hma
    · have := h'.granted (m - a) (by omega)
      rwa [h.deny, Nat.add_sub_cancel' (by omega)] at this
  · rcases h'.fails with hd | hl
    · left
      rwa [h.deny] at hd
    · right
      omega

theorem Mem.FirstFail.unique (h : s.FirstFail l a) (h' : s.FirstFail l b) : a = b := by
  have key : ∀ {a b : Nat}, s.FirstFail l a → s.FirstFail l b → ¬ a < b := by
    intro a b h h' hlt
    rcases h.fails with hd | hl
    · exact absurd (hd.symm.trans (h'.granted a hlt)) nofun
    · have := h'.le
      omega
  have h1 := key h h'
  have h2 := key h' h
  omega

/-- As many calls as were granted come before the first that fails. -/
theorem Took.le_firstFail (h : Took a s l s₁ l₁) (h' : s.FirstFail l b) : a ≤ b := by
  by_contra hlt
  rcases h'.fails with hd | hl
  · exact absurd (hd.symm.trans (h.granted b (by omega))) nofun
  · have := h.le
    omega

end

end Xv6.Vm
