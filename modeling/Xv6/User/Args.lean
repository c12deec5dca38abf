import Xv6.Fs.Coherence

/-!
# System call arguments: `syscall.c`, and `sys_read` of `sysfile.c`

A system call finds its arguments as words on the user stack.  `argint` fetches one of them,
`argptr` also checks that a block of memory starting there lies below `proc->sz`, and the kernel
then stores through the pointer without another check.  Everything is 32-bit arithmetic, so the
sum `(uint)i + size` of the check can wrap.

The stores of a call are modelled by the list of addresses it writes to, in order.
-/

namespace Xv6.User

/-- `uint`, `int` and the pointers of the 32-bit kernel. -/
abbrev Word := BitVec 32

/-- Where the kernel's half of every address space starts. -/
abbrev KERNBASE : Word := 0x80000000

/-- Open files per process. -/
abbrev NOFILE : Nat := 16

/-- What the argument fetches read of the current process. -/
structure User where
  /-- Size of process memory. -/
  sz : Word
  /-- `tf->esp`, the user's stack pointer. -/
  esp : Word
  /-- The word stored at an address. -/
  word : Word → Word

/-- `fetchint`; `none` is `-1`. -/
def fetchint (u : User) (addr : Word) : Option Word :=
  if u.sz ≤ addr ∨ u.sz < addr + 4 then none else some (u.word addr)

/-- `argint`: the saved program counter stands before the first argument. -/
def argint (u : User) (n : Nat) : Option Word :=
  fetchint u (u.esp + 4 + 4 * BitVec.ofNat 32 n)

/-- `argptr(n, &p, size)`. -/
def argptr (u : User) (n : Nat) (size : Word) : Option Word := do
  let i ← argint u n
  if u.sz ≤ i ∨ u.sz < i + size then none else some i

/-- The addresses of `m` consecutive bytes. -/
def bytes (dst : Word) (m : Nat) : List Word :=
  (List.range m).map fun k => dst + BitVec.ofNat 32 k

@[simp] theorem bytes_zero (dst : Word) : bytes dst 0 = [] := rfl

theorem mem_bytes {dst a : Word} {m : Nat} :
    a ∈ bytes dst m ↔ ∃ k < m, dst + BitVec.ofNat 32 k = a := by
  simp [bytes]

theorem bytes_add (dst : Word) (m k : Nat) :
    bytes dst (m + k) = bytes dst m ++ bytes (dst + BitVec.ofNat 32 m) k := by
  unfold bytes
  rw [List.range_add, List.map_append, List.map_map]
  congr 1
  apply List.map_congr_left
  intro j _
  rw [Function.comp_apply, BitVec.ofNat_add, BitVec.add_assoc]

/-- Bytes that start below `sz` stay below it when their end does, and only then. -/
theorem bytes_below {dst sz : Word} {m : Nat} (hd : dst < sz) :
    (∀ a ∈ bytes dst m, a < sz) ↔ dst.toNat + m ≤ sz.toNat := by
  constructor
  · intro h
    by_contra hm
    have hk : sz.toNat - dst.toNat < m := by
      have := BitVec.lt_def.1 hd
      omega
    have := h _ (mem_bytes.2 ⟨_, hk, rfl⟩)
    bv_omega
  · intro h a ha
    obtain ⟨k, hk, rfl⟩ := mem_bytes.1 ha
    bv_omega

/-! ## `readi` and what it stores -/

/-- The part of an inode that decides what `readi` stores. -/
structure Inode where
  type : BitVec 16
  major : BitVec 16
  size : Word

/-- An open file of type `FD_INODE`. -/
structure File where
  readable : Bool
  ip : Inode
  off : Word

/-- The loop of `readi`; each pass copies at least one byte, so `n` passes are enough. -/
def readiLoop (n : Word) : (fuel : Nat) → (tot off dst : Word) → List Word
  | 0, _, _, _ => []
  | fuel + 1, tot, off, dst =>
    if tot < n then
      let m : Word := if n - tot < 512 - off % 512 then n - tot else 512 - off % 512
      bytes dst m.toNat ++ readiLoop n fuel (tot + m) (off + m) (dst + m)
    else []

/-- `consoleread`, run on the characters the console hands over during the call.  The list ends
where the reader is killed. -/
def consoleread : (input : List UInt8) → (dst n : Word) → List Word
  | [], _, _ => []
  | c :: input, dst, n =>
    if 0 < n.toInt then
      if c = 4 then []
      else if c = 10 then [dst]
      else dst :: consoleread input (dst + 1) (n - 1)
    else []

/-- `devsw[major].read`: `consoleinit` sets the one of the console, the other entries are null. -/
def devsw (major : BitVec 16) : Option (List UInt8 → Word → Word → List Word) :=
  if major = 1 then some consoleread else none

/-- The stores of `readi(ip, dst, off, n)`; `none` is `-1`. -/
def readi (ip : Inode) (input : List UInt8) (dst off n : Word) : Option (List Word) :=
  if ip.type = Fs.T_DEV then
    (devsw ip.major).map fun read => read input dst n
  else if ip.size < off ∨ off + n < off then none
  else
    let n := if ip.size < off + n then ip.size - off else n
    some (readiLoop n n.toNat 0 off dst)

def fileread (f : File) (input : List UInt8) (addr n : Word) : Option (List Word) :=
  if f.readable = false then none else readi f.ip input addr f.off n

/-- `argfd(0, 0, &f)`, with the inode files among the process's open files. -/
def argfd (u : User) (ofile : Nat → Option File) : Option File := do
  let fd ← argint u 0
  if fd.toInt < 0 ∨ NOFILE ≤ fd.toInt then none else ofile fd.toNat

/-- `sys_read`, with the addresses it stores to. -/
def sysRead (u : User) (ofile : Nat → Option File) (input : List UInt8) :
    Option (List Word) := do
  let f ← argfd u ofile
  let n ← argint u 2
  let p ← argptr u 1 n
  fileread f input p n

/-- The passes of `readi` store to consecutive addresses. -/
theorem readiLoop_eq (n : Word) (fuel : Nat) (tot off dst : Word) (ht : tot ≤ n)
    (hf : (n - tot).toNat ≤ fuel) : readiLoop n fuel tot off dst = bytes dst (n - tot).toNat := by
  induction fuel generalizing tot off dst with
  | zero =>
    rw [Nat.le_zero.mp hf]
    rfl
  | succ fuel ih =>
    rw [readiLoop]
    split
    next hlt =>
      extract_lets m
      -- one pass copies `m` bytes, at least one and at most what is left
      have hm : 0 < m.toNat ∧ m.toNat ≤ (n - tot).toNat := by
        have ho : (off % 512).toNat < 512 := Nat.mod_lt _ (by decide)
        subst m
        generalize off % 512 = o at ho
        split <;> constructor <;> bv_omega
      have hleft : (n - (tot + m)).toNat = (n - tot).toNat - m.toNat := by bv_omega
      have hsum : (n - tot).toNat = m.toNat + (n - (tot + m)).toNat := by omega
      rw [ih _ _ _ (by bv_omega) (by omega), hsum, bytes_add, BitVec.ofNat_toNat,
        BitVec.setWidth_eq]
    next hge =>
      have : n - tot = 0 := by bv_omega
      rw [this]
      rfl

variable {ip : Inode}

/-- The stores of `readi` on a file or directory: as many as the clipped length. -/
theorem readi_eq (hty : ip.type ≠ Fs.T_DEV) (input : List UInt8)
    (dst off n : Word) : readi ip input dst off n =
      if ip.size < off ∨ off + n < off then none
      else some (bytes dst (if ip.size < off + n then ip.size - off else n).toNat) := by
  rw [readi, if_neg hty]
  split
  · rfl
  · extract_lets m
    have h0 : m - 0 = m := BitVec.sub_zero m
    rw [readiLoop_eq m _ 0 off dst (by bv_omega) (by rw [h0]), h0]

/-- The console stores at most the signed count of bytes, so nothing for a negative one. -/
theorem consoleread_length (input : List UInt8) (dst n : Word) :
    ∃ m : Nat, consoleread input dst n = bytes dst m ∧ (m = 0 ∨ (m : Int) ≤ n.toInt) := by
  induction input generalizing dst n with
  | nil => exact ⟨0, rfl, .inl rfl⟩
  | cons c input ih =>
    rw [consoleread]
    split
    next hn =>
      have h1 : bytes dst 1 = [dst] := by simp [bytes]
      split
      · exact ⟨0, rfl, .inl rfl⟩
      split
      · exact ⟨1, h1.symm, .inr (by omega)⟩
      · obtain ⟨m, hm, hle⟩ := ih (dst + 1) (n - 1)
        have hpred : (n - 1).toInt = n.toInt - 1 := by
          rw [BitVec.toInt_eq_toNat_cond] at hn ⊢
          rw [BitVec.toInt_eq_toNat_cond]
          bv_omega
        refine ⟨1 + m, ?_, .inr (by omega)⟩
        rw [bytes_add, h1, hm]
        rfl
    next => exact ⟨0, rfl, .inl rfl⟩

/-- An inode as the file system holds it. -/
def ofDinode (d : Fs.Dinode) : Inode := ⟨d.type, d.major, BitVec.ofNat 32 d.size⟩

/-- There are as many stores as bytes that the `readi` of the file system returns. -/
theorem readi_length {sb : Fs.Superblock} {dev : Fs.Devsw} {m : Fs.Mode} {P : Fs.ISlot → Nat}
    {T : List Fs.ISlot} {s : Fs.State} {t : Fs.ISlot} (h : Fs.Good sb m P T s)
    (ht : 0 < P t + T.count t) (hv : (s.ic t).valid = true)
    (hd : (s.ic t).copy.type ≠ Fs.T_DEV) (input : List UInt8) (dst off n : Word) :
    ∃ r, Fs.readi sb dev t off.toNat n.toNat s = .ok (r, s) ∧
      r.map List.length =
        (readi (ofDinode (s.ic t).copy) input dst off n).map List.length := by
  refine ⟨_, Fs.readi_good h ht hv hd, ?_⟩
  have hsize : (ofDinode (s.ic t).copy).size.toNat = (s.ic t).copy.size := by
    apply Nat.mod_eq_of_lt
    rw [h.copy ht hv]
    exact (h.disk.fits (h.live ht hv)).1
  have hrej : Fs.Rejected (s.ic t).copy off.toNat n.toNat ↔
      ((ofDinode (s.ic t).copy).size < off ∨ off + n < off) := by
    unfold Fs.Rejected
    bv_omega
  rw [readi_eq hd]
  by_cases hr : Fs.Rejected (s.ic t).copy off.toNat n.toNat
  · rw [if_pos hr, if_pos (hrej.1 hr)]
    rfl
  · rw [if_neg hr, if_neg (hrej.not.1 hr)]
    unfold Fs.Rejected at hr
    simp only [Option.map_some, Fs.Disk.bytes, bytes, List.length_map, List.length_range, Fs.clip,
      Option.some.injEq]
    split <;> split <;> bv_omega

/-! ## The destination of a read -/

section
variable {u : User} {ofile : Nat → Option File} {f : File} {p n : Word}
  (hf : argfd u ofile = some f) (hp : argint u 1 = some p) (hn : argint u 2 = some n)

include hf hp hn

theorem sysRead_eq (input : List UInt8) : sysRead u ofile input =
    if u.sz ≤ p ∨ u.sz < p + n then none else fileread f input p n := by
  simp only [sysRead, argptr, hf, hp, hn, Option.bind_eq_bind, Option.bind_some]
  split <;> rfl

end

variable {input : List UInt8}

/-- With a count that is not negative, `readi` stores at most that many bytes. -/
theorem readi_le {dst off n : Word} {l : List Word}
    (hn : 0 ≤ n.toInt) (h : readi ip input dst off n = some l) :
    ∃ m ≤ n.toNat, l = bytes dst m := by
  by_cases hty : ip.type = Fs.T_DEV
  · rw [readi, if_pos hty, devsw] at h
    split at h
    · obtain ⟨m, hm, hle⟩ := consoleread_length input dst n
      have := BitVec.toInt_eq_toNat_cond n
      exact ⟨m, by split at this <;> omega, by simpa [hm] using h.symm⟩
    · cases h
  · rw [readi_eq hty] at h
    split at h
    · cases h
    next hok =>
      refine ⟨_, ?_, (Option.some.inj h).symm⟩
      split
      · bv_omega
      · rfl

/-- A negative count passes the check of `argptr` when it does not reach below address zero. -/
theorem argptr_negative {sz p n : Word} (hn : n.toInt < 0) (hsz : sz < KERNBASE) (hp : p < sz) :
    sz < p + n ↔ p.toNat + n.toInt < 0 := by
  rw [BitVec.toInt_eq_toNat_cond] at hn ⊢
  bv_omega

/-- `readi` takes a negative count as a huge one, which it rejects only when the offset plus the
count wraps. -/
theorem readi_negative {dst off n : Word} (hn : n.toInt < 0) (hty : ip.type ≠ Fs.T_DEV) :
    readi ip input dst off n =
      if ip.size < off ∨ 0 ≤ off.toNat + n.toInt then none
      else some (bytes dst (if ip.size < off + n then ip.size - off else n).toNat) := by
  have hiff : off + n < off ↔ 0 ≤ off.toNat + n.toInt := by
    rw [BitVec.toInt_eq_toNat_cond] at hn ⊢
    bv_omega
  rw [readi_eq hty]
  simp only [hiff]

theorem readi_device {dst off n : Word} {l : List Word}
    (hn : n.toInt < 0) (hty : ip.type = Fs.T_DEV) (h : readi ip input dst off n = some l) :
    l = [] := by
  rw [readi, if_pos hty, devsw] at h
  split at h
  · obtain ⟨m, hm, hle⟩ := consoleread_length input dst n
    have h0 : m = 0 := by omega
    simpa [hm, h0] using h.symm
  · cases h

/-- `sys_read` on an inode file, for every size of the address space and of the file, every
offset and every argument words.  The bytes it stores all lie below `sz` exactly when the count
is not negative, when the call fails, or when the rest of the file happens to fit. -/
theorem read_below_sz {u : User} {ofile : Nat → Option File} {f : File} {p n : Word}
    (input : List UInt8) (hsz : u.sz < KERNBASE) (hf : argfd u ofile = some f)
    (hp : argint u 1 = some p) (hn : argint u 2 = some n) :
    (∀ l, sysRead u ofile input = some l → ∀ a ∈ l, a < u.sz) ↔
      0 ≤ n.toInt ∨ u.sz ≤ p ∨ p.toNat + n.toInt < 0 ∨ f.readable = false ∨
        f.ip.type = Fs.T_DEV ∨ f.ip.size ≤ f.off ∨ 0 ≤ f.off.toNat + n.toInt ∨
        p.toNat + (f.ip.size - f.off).toNat ≤ u.sz.toNat := by
  rw [sysRead_eq hf hp hn]
  by_cases hps : u.sz ≤ p
  · simp [hps]
  have hlt : p < u.sz := by bv_omega
  by_cases hpos : 0 ≤ n.toInt
  · simp only [hpos, true_or, iff_true]
    intro l hl
    split at hl
    · cases hl
    next harg =>
      rw [fileread] at hl
      split at hl
      · cases hl
      obtain ⟨m, hm, rfl⟩ := readi_le hpos hl
      -- a count below `2 ^ 31` cannot make the sum of the check wrap
      rw [bytes_below hlt]
      rw [BitVec.toInt_eq_toNat_cond] at hpos
      bv_omega
  have hneg : n.toInt < 0 := by omega
  simp only [hpos, hps, argptr_negative hneg hsz hlt, false_or]
  by_cases hlow : p.toNat + n.toInt < 0
  · simp [hlow]
  by_cases hr : f.readable = false
  · simp [fileread, hr]
  rw [if_neg hlow, fileread, if_neg hr]
  simp only [hlow, hr, reduceCtorEq, false_or]
  by_cases hty : f.ip.type = Fs.T_DEV
  · simp only [hty, true_or, iff_true]
    intro l hl a ha
    rw [readi_device hneg hty hl] at ha
    cases ha
  rw [readi_negative hneg hty]
  simp only [hty, false_or]
  split
  next hrej =>
    simp only [reduceCtorEq, false_implies, implies_true, true_iff]
    rcases hrej with h | h
    · exact .inl (by bv_omega)
    · exact .inr (.inl h)
  next hrej =>
    obtain ⟨hle, hoff⟩ := not_or.1 hrej
    simp only [Option.some.injEq, forall_eq', bytes_below hlt, hoff, false_or]
    rw [BitVec.toInt_eq_toNat_cond] at hneg hlow hoff
    split <;> bv_omega


/-- A process of one page with the words `fd`, `p` and `n` as arguments. -/
def onePage (fd p n : Word) : User where
  sz := 4096
  esp := 0
  word a := if a = 4 then fd else if a = 8 then p else n

/-- A file of one block, opened for reading at its start. -/
def oneBlock (_ : Nat) : Option File := some ⟨true, ⟨Fs.T_FILE, 0, 512⟩, 0⟩

/-- Ten bytes at the end of the page. -/
theorem read_below_sz_page :
    ∃ l, sysRead (onePage 3 4000 10) oneBlock [] = some l ∧ ∀ a ∈ l, a < 4096 := by
  have hbelow : ∀ l, sysRead (onePage 3 4000 10) oneBlock [] = some l → ∀ a ∈ l, a < 4096 :=
    (read_below_sz [] (by decide) (f := ⟨true, ⟨Fs.T_FILE, 0, 512⟩, 0⟩) (p := 4000) (n := 10)
      rfl rfl rfl).2 (.inl (by decide))
  have hread : sysRead (onePage 3 4000 10) oneBlock [] = some (bytes 4000 10) := by
    decide +kernel
  exact ⟨_, hread, hbelow _ hread⟩

/-- A count of -1 passes the check, and `readi` copies the whole file: the page ends at 4096. -/
theorem read_above_sz :
    ∃ l, sysRead (onePage 3 4000 (-1)) oneBlock [] = some l ∧ (onePage 3 4000 (-1)).sz ∈ l :=
  ⟨bytes 4000 512, by decide +kernel, by decide +kernel⟩

end Xv6.User
