import Xv6.Console.Model

/-!
# A line editor

`Editor` says what the console input is for: a line is typed and edited, a newline, ^D or a full buffer
commits it, and the reader gets the committed characters in order, at most one line at a time.  A ^D is
not handed over; it ends a read, and one read that has nothing before it.

The code does the same (`Editing.key`, `Editing.read`), however often its indices have wrapped, so
that every run of the code is a run of the editor with the same results (`console_line_editor`).
-/

namespace Xv6.Console

open List

/-! ## The editor -/

structure Editor where
  /-- all that has been committed -/
  committed : List UInt8
  /-- how much of it has been read -/
  pos : Nat
  /-- the line that is being edited -/
  line : List UInt8

namespace Editor

def unread (a : Editor) : List UInt8 := a.committed.drop a.pos

def pending (a : Editor) : Nat := a.unread.length + a.line.length

/-- A character is typed; carriage return is newline. -/
def insert (c : UInt8) (a : Editor) : Editor :=
  let c := if c = carriage then newline else c
  if c = newline ∨ c = ctrl 'D' ∨ a.pending + 1 = INPUT_BUF then
    { a with committed := a.committed ++ a.line ++ [c], line := [] }
  else { a with line := a.line ++ [c] }

def key (c : UInt8) (a : Editor) : Editor :=
  if listing c then a
  else if c = ctrl 'U' then { a with line := [] }
  else if erases c then { a with line := a.line.dropLast }
  else if c = 0 ∨ a.pending = INPUT_BUF then a
  else a.insert c

end Editor

/-- What does not end a line. -/
def plain (c : UInt8) : Bool := c ≠ newline ∧ c ≠ ctrl 'D'

/-- What a call has got. -/
structure Result where
  bytes : List UInt8
  /-- it has read a ^D -/
  eof : Bool

/-- The characters that the call has taken. -/
def Result.taken (x : Result) : List UInt8 := if x.eof then x.bytes ++ [ctrl 'D'] else x.bytes

/-- How far a read gets: it has its result, or it waits for `n` more, with `dst`; the number is that of
the characters it takes. -/
inductive Progress
  | done (x : Result) (used : Nat)
  | waits (n : Nat) (dst : List UInt8) (used : Nat)

def Progress.used : Progress → Nat
  | .done _ used => used
  | .waits _ _ used => used

/-- A read of `n` more characters after `dst`, when `u` has been committed. -/
def read (n : Nat) (dst u : List UInt8) : Progress :=
  let l := u.takeWhile plain
  if n ≤ l.length then .done ⟨dst ++ l.take n, false⟩ n
  else
    match u.drop l.length with
    | [] => .waits (n - l.length) (dst ++ l) l.length
    | c :: _ =>
      if c = newline then .done ⟨dst ++ l ++ [c], false⟩ (l.length + 1)
      else if dst ++ l = [] then .done ⟨[], true⟩ 1
      else .done ⟨dst ++ l, false⟩ l.length

/-! ## The code does what the editor does -/

/-- The input holds what the editor has. -/
structure Editing (i : Input) (a : Editor) : Prop where
  ring : i.ring.Holds a.pos (a.unread ++ a.line)
  w : i.w = BitVec.ofNat 32 (a.pos + a.unread.length)
  pos : a.pos ≤ a.committed.length
  line : newline ∉ a.line

variable {c : UInt8}

section
variable {i : Input} {a : Editor}

theorem dvd_buf : INPUT_BUF ∣ 2 ^ 32 := by decide

theorem lt_buf : INPUT_BUF < 2 ^ 32 := by decide

section
variable (h : Editing i a)
include h

theorem Editing.w_sub : (i.w - i.r).toNat = a.unread.length := by
  have hr : i.r = BitVec.ofNat 32 a.pos := h.ring.rd
  have hle := h.ring.le
  rw [length_append] at hle
  dsimp only [INPUT_BUF] at hle
  rw [hr, h.w, BitVec.ofNat_add, BitVec.add_comm, BitVec.add_sub_cancel, BitVec.toNat_ofNat]
  exact Nat.mod_eq_of_lt (by omega)

theorem Editing.e_sub : (i.e - i.r).toNat = a.pending := by
  have hcount := h.ring.count lt_buf
  rw [length_append] at hcount
  exact hcount

theorem Editing.e_eq : i.e = i.w + BitVec.ofNat 32 a.line.length := by
  have he : i.e = BitVec.ofNat 32 (a.pos + (a.unread ++ a.line).length) := h.ring.wr
  rw [he, h.w, ← BitVec.ofNat_add, length_append, Nat.add_assoc]

theorem Editing.line_le : a.line.length ≤ INPUT_BUF := by
  have hle := h.ring.le
  rw [length_append] at hle
  omega

theorem Editing.line_length : (i.e - i.w).toNat = a.line.length := by
  have hle := h.line_le
  dsimp only [INPUT_BUF] at hle
  rw [h.e_eq, BitVec.add_comm, BitVec.add_sub_cancel, BitVec.toNat_ofNat]
  exact Nat.mod_eq_of_lt (by omega)

theorem Editing.line_empty_iff : i.e = i.w ↔ a.line = [] := by
  constructor
  · intro he
    have hlen := h.line_length
    rw [he, BitVec.sub_self] at hlen
    exact length_eq_zero_iff.1 hlen.symm
  · intro h0
    rw [h.e_eq, h0]
    exact BitVec.add_zero i.w

/-- One character of the line is erased. -/
theorem Editing.erase {l : List UInt8} (hl : a.line = l ++ [c]) :
    i.buf (Ring.cell (i.e - 1)) = c ∧ Editing { i with e := i.e - 1 } { a with line := l } := by
  have hring := h.ring
  rw [hl, ← append_assoc] at hring
  refine ⟨hring.back dvd_buf, ⟨hring.unpush, h.w, h.pos, fun hmem => h.line ?_⟩⟩
  rw [hl]
  exact mem_append_left _ hmem

/-- ^U erases the line: there is no newline in it. -/
theorem Editing.killLine : Editing (i.killLine a.line.length) { a with line := [] } := by
  generalize hn : a.line.length = n
  induction n generalizing i a with
  | zero =>
    have hl := length_eq_zero_iff.1 hn
    rw [← hl]
    exact h
  | succ n ih =>
    have hne : a.line ≠ [] := by
      intro h0
      rw [h0] at hn
      cases hn
    have hl := (dropLast_append_getLast hne).symm
    obtain ⟨hback, hrest⟩ := h.erase hl
    have hc : a.line.getLast hne ≠ newline := fun hc => h.line (hc ▸ getLast_mem hne)
    rw [Input.killLine, if_pos ⟨mt h.line_empty_iff.1 hne, by rwa [hback]⟩]
    have hlen : a.line.dropLast.length = n := by rw [length_dropLast, hn, Nat.add_sub_cancel]
    have hkill := ih hrest hlen
    exact hkill

/-- A character for which there is room. -/
theorem Editing.insert (hroom : a.pending < INPUT_BUF) (c : UInt8) :
    Editing (i.insert c) (a.insert c) := by
  unfold Input.insert Editor.insert
  dsimp only
  generalize (if c = carriage then newline else c) = d
  have hlen : (a.unread ++ a.line).length < INPUT_BUF := by
    rw [length_append]
    exact hroom
  have hring := h.ring.push dvd_buf hlen d
  have hfull := hring.full_iff lt_buf
  rw [length_append, length_append] at hfull
  have hcond : (d = newline ∨ d = ctrl 'D' ∨ i.e + 1 = i.r + BitVec.ofNat 32 INPUT_BUF) ↔
      (d = newline ∨ d = ctrl 'D' ∨ a.pending + 1 = INPUT_BUF) := or_congr_right (or_congr_right hfull)
  by_cases hc : d = newline ∨ d = ctrl 'D' ∨ a.pending + 1 = INPUT_BUF
  · rw [if_pos (hcond.2 hc), if_pos hc]
    have hun : ({ a with committed := a.committed ++ a.line ++ [d], line := [] } : Editor).unread =
        a.unread ++ a.line ++ [d] := by
      unfold Editor.unread
      rw [append_assoc, drop_append_of_le_length h.pos, append_assoc]
    refine ⟨?_, ?_, ?_, not_mem_nil⟩
    · rw [hun, append_nil]
      exact hring
    · rw [hun]
      exact hring.wr
    · show a.pos ≤ (a.committed ++ a.line ++ [d]).length
      have := h.pos
      rw [length_append, length_append]
      omega
  · rw [if_neg (mt hcond.1 hc), if_neg hc]
    refine ⟨?_, h.w, h.pos, ?_⟩
    · rw [append_assoc] at hring
      exact hring
    · rw [mem_append, mem_singleton]
      rintro (hmem | he)
      · exact h.line hmem
      · exact hc (.inl he.symm)

/-- Every key. -/
theorem Editing.key (c : UInt8) : Editing (consoleintrChar c i) (a.key c) := by
  have hle := h.ring.le
  rw [length_append] at hle
  unfold consoleintrChar Editor.key
  by_cases h1 : listing c
  · rw [if_pos h1, if_pos h1]
    exact h
  rw [if_neg h1, if_neg h1]
  by_cases h2 : c = ctrl 'U'
  · rw [if_pos h2, if_pos h2, h.line_length]
    exact h.killLine
  rw [if_neg h2, if_neg h2]
  by_cases h3 : erases c
  · rw [if_pos h3, if_pos h3]
    by_cases hl : a.line = []
    · rw [if_neg (not_not.2 (h.line_empty_iff.2 hl)), hl]
      show Editing i { a with line := [] }
      rw [← hl]
      exact h
    · rw [if_pos (mt h.line_empty_iff.1 hl)]
      exact (h.erase (dropLast_append_getLast hl).symm).2
  rw [if_neg h3, if_neg h3, h.e_sub]
  by_cases h4 : c = 0 ∨ a.pending = INPUT_BUF
  · rw [if_pos h4, if_neg]
    · exact h
    · rintro ⟨h0, hlt⟩
      rcases h4 with h4 | h4
      · exact h0 h4
      · omega
  · have hroom : a.pending < INPUT_BUF := by
      have : a.pending ≤ INPUT_BUF := hle
      omega
    rw [if_neg h4, if_pos ⟨fun h0 => h4 (.inl h0), hroom⟩]
    exact h.insert hroom c

theorem Editing.intr (cs : List UInt8) :
    Editing (consoleintr cs i) (cs.foldl (fun a c => a.key c) a) := by
  induction cs generalizing i a with
  | nil => exact h
  | cons c cs ih => exact ih (h.key c)

/-! ### Reading -/

theorem Editing.unread_empty_iff : i.r = i.w ↔ a.unread = [] := by
  constructor
  · intro he
    have hlen := h.w_sub
    rw [he, BitVec.sub_self] at hlen
    exact length_eq_zero_iff.1 hlen.symm
  · intro h0
    have hr : i.r = BitVec.ofNat 32 a.pos := h.ring.rd
    rw [hr, h.w, h0]
    rfl

/-- The reader takes a character. -/
theorem Editing.take {u : List UInt8} (hu : a.unread = c :: u) :
    i.buf (Ring.cell i.r) = c ∧ Editing { i with r := i.r + 1 } { a with pos := a.pos + 1 } ∧
      ({ a with pos := a.pos + 1 } : Editor).unread = u := by
  have hrest : ({ a with pos := a.pos + 1 } : Editor).unread = u := by
    show a.committed.drop (a.pos + 1) = u
    rw [← drop_drop]
    show a.unread.drop 1 = u
    rw [hu]
    rfl
  have hring := h.ring
  rw [hu, cons_append] at hring
  refine ⟨hring.front dvd_buf, ⟨?_, ?_, ?_, h.line⟩, hrest⟩
  · rw [hrest]
    exact hring.pop
  · rw [hrest]
    show i.w = BitVec.ofNat 32 (a.pos + 1 + u.length)
    rw [h.w, hu, length_cons, Nat.add_right_comm, Nat.add_assoc]
  · show a.pos + 1 ≤ a.committed.length
    have hlen := congrArg List.length hu
    rw [Editor.unread, length_drop, length_cons] at hlen
    omega

end

/-- One more character has been taken. -/
def Progress.more : Progress → Progress
  | .done x used => .done x (used + 1)
  | .waits n dst used => .waits n dst (used + 1)

theorem read_zero (dst u : List UInt8) : read 0 dst u = .done ⟨dst, false⟩ 0 := by
  unfold read
  dsimp only
  rw [if_pos (Nat.zero_le _), take_zero, append_nil]

theorem read_nil (n : Nat) (dst : List UInt8) : read (n + 1) dst [] = .waits (n + 1) dst 0 := by
  show Progress.waits (n + 1 - 0) (dst ++ []) 0 = _
  rw [append_nil]
  rfl

theorem read_newline (n : Nat) (dst u : List UInt8) :
    read (n + 1) dst (newline :: u) = .done ⟨dst ++ [newline], false⟩ 1 := by
  show Progress.done ⟨dst ++ [] ++ [newline], false⟩ 1 = _
  rw [append_nil]

theorem read_eof (n : Nat) (dst u : List UInt8) : read (n + 1) dst (ctrl 'D' :: u) =
    if dst = [] then .done ⟨[], true⟩ 1 else .done ⟨dst, false⟩ 0 := by
  show (if dst ++ [] = [] then Progress.done ⟨[], true⟩ 1 else Progress.done ⟨dst ++ [], false⟩ 0) = _
  rw [append_nil]

theorem read_plain (hc : plain c = true) (n : Nat) (dst u : List UInt8) :
    read (n + 1) dst (c :: u) = (read n (dst ++ [c]) u).more := by
  have hl : (c :: u).takeWhile plain = c :: u.takeWhile plain := takeWhile_cons_of_pos hc
  unfold read
  dsimp only
  rw [hl, length_cons, drop_succ_cons]
  by_cases hn : n ≤ (u.takeWhile plain).length
  · rw [if_pos (Nat.succ_le_succ hn), if_pos hn, take_succ_cons, append_assoc]
    rfl
  · rw [if_neg (fun h => hn (Nat.le_of_succ_le_succ h)), if_neg hn]
    have happ : dst ++ c :: u.takeWhile plain = dst ++ [c] ++ u.takeWhile plain := by
      rw [append_assoc]
      rfl
    have hne : dst ++ [c] ++ u.takeWhile plain ≠ [] := by simp
    cases u.drop (u.takeWhile plain).length with
    | nil =>
      dsimp only
      rw [Nat.add_sub_add_right, happ]
      rfl
    | cons x rest =>
      dsimp only
      rw [happ]
      by_cases hx : x = newline
      · rw [if_pos hx, if_pos hx]
        rfl
      · rw [if_neg hx, if_neg hx, if_neg hne, if_neg hne]
        rfl

/-- The loop of `consoleread` gets as far as the editor's reader. -/
theorem Editing.read {target : Nat} (n : Nat) : ∀ {i : Input} {a : Editor} {dst : List UInt8},
    Editing i a → target = dst.length + n →
    match Console.read n dst a.unread with
    | .done x used => ∃ i', consoleread false target n dst i = (.ret x.bytes.length x.bytes, i') ∧
        Editing i' { a with pos := a.pos + used }
    | .waits m dst' used => ∃ i', consoleread false target n dst i = (.sleep m dst', i') ∧
        Editing i' { a with pos := a.pos + used } ∧ target = dst'.length + m := by
  induction n with
  | zero =>
    intro i a dst h ht
    rw [read_zero]
    refine ⟨i, ?_, h⟩
    rw [consoleread, ht]
    rfl
  | succ n ih =>
    intro i a dst h ht
    cases hu : a.unread with
    | nil =>
      rw [read_nil]
      refine ⟨i, ?_, h, ht⟩
      rw [consoleread, if_pos (h.unread_empty_iff.2 hu)]
      rfl
    | cons c u =>
      obtain ⟨hc, htake, hrest⟩ := h.take hu
      have hne : i.r ≠ i.w := by
        rw [ne_eq, h.unread_empty_iff, hu]
        nofun
      rw [consoleread, if_neg hne, hc]
      dsimp only
      by_cases hD : c = ctrl 'D'
      · subst hD
        rw [if_pos rfl, read_eof]
        by_cases hdst : dst = []
        · subst hdst
          rw [if_pos rfl, if_neg (by rw [ht, length_nil]; omega)]
          refine ⟨_, ?_, htake⟩
          rw [ht, length_nil, Nat.zero_add, Nat.sub_self]
        · have hpos := length_pos_iff.2 hdst
          rw [if_neg hdst, if_pos (by omega)]
          refine ⟨i, ?_, h⟩
          rw [BitVec.add_sub_cancel, show target - (n + 1) = dst.length by omega]
      · rw [if_neg hD]
        by_cases hN : c = newline
        · subst hN
          rw [if_pos rfl, read_newline]
          refine ⟨_, ?_, htake⟩
          rw [length_append, length_singleton, show target - n = dst.length + 1 by omega]
        · rw [if_neg hN, read_plain (by simp [plain, hD, hN])]
          have hstep := ih htake (show target = (dst ++ [c]).length + n by
            rw [length_append, length_singleton]
            omega)
          rw [hrest] at hstep
          cases hp : Console.read n (dst ++ [c]) u with
          | done x used =>
            rw [hp] at hstep
            obtain ⟨i', hrun, hed⟩ := hstep
            refine ⟨i', hrun, ?_⟩
            rw [Nat.add_comm used 1, ← Nat.add_assoc]
            exact hed
          | waits m dst' used =>
            rw [hp] at hstep
            obtain ⟨i', hrun, hed, ht'⟩ := hstep
            refine ⟨i', hrun, ?_, ht'⟩
            rw [Nat.add_comm used 1, ← Nat.add_assoc]
            exact hed

end

/-! ## Whole runs -/

/-- The editor with its reader. -/
structure Session where
  editor : Editor
  /-- a read that waits: how much is to go, and what it has -/
  call : Option (Nat × List UInt8)
  out : List Result

namespace Session

def start : Session := ⟨⟨[], 0, []⟩, none, []⟩

def run (a : Session) (n : Nat) (dst : List UInt8) : Session :=
  match read n dst a.editor.unread with
  | .done x used => ⟨{ a.editor with pos := a.editor.pos + used }, none, a.out ++ [x]⟩
  | .waits m dst' used => ⟨{ a.editor with pos := a.editor.pos + used }, some (m, dst'), a.out⟩

def exec (a : Session) : Act → Option Session
  | .intr cs => some { a with editor := cs.foldl (fun a c => a.key c) a.editor }
  | .read n => if a.call.isNone then some (a.run n.toNat []) else none
  | .resume => a.call.map fun c => a.run c.1 c.2

/-- What the waiting read has. -/
def got (a : Session) : List UInt8 := (a.call.map Prod.snd).getD []

/-- The reads have had what was committed, in order, and none of them went beyond a line. -/
structure Delivered (a : Session) : Prop where
  order : a.out.flatMap Result.taken ++ a.got = a.editor.committed.take a.editor.pos
  pos : a.editor.pos ≤ a.editor.committed.length
  got : ∀ c ∈ a.got, plain c = true
  newline : ∀ x ∈ a.out, newline ∉ x.bytes.dropLast
  ctrlD : ∀ x ∈ a.out, ctrl 'D' ∉ x.bytes
  eof : ∀ x ∈ a.out, x.eof = true → x.bytes = []

end Session

theorem not_plain (h : plain c = false) : c = newline ∨ c = ctrl 'D' := by
  by_contra hc
  rw [not_or] at hc
  rw [plain, decide_eq_true hc] at h
  cases h

theorem plain_ne (h : plain c = true) : c ≠ newline ∧ c ≠ ctrl 'D' := of_decide_eq_true h

/-- What a read takes is what it hands over, up to a ^D. -/
theorem read_taken (n : Nat) {dst u : List UInt8} (hdst : ∀ c ∈ dst, plain c = true) :
    match read n dst u with
    | .done x used => used ≤ u.length ∧ x.taken = dst ++ u.take used ∧ newline ∉ x.bytes.dropLast ∧
        ctrl 'D' ∉ x.bytes ∧ (x.eof = true → x.bytes = [])
    | .waits _ dst' used => used ≤ u.length ∧ dst' = dst ++ u.take used ∧ ∀ c ∈ dst', plain c = true := by
  have hfine : ∀ {l : List UInt8}, (∀ c ∈ l, plain c = true) → newline ∉ l ∧ ctrl 'D' ∉ l := fun hl =>
    ⟨fun hm => (plain_ne (hl _ hm)).1 rfl, fun hm => (plain_ne (hl _ hm)).2 rfl⟩
  induction n generalizing dst u with
  | zero =>
    rw [read_zero]
    refine ⟨Nat.zero_le _, ?_, fun hm => (hfine hdst).1 (mem_of_mem_dropLast hm), (hfine hdst).2, nofun⟩
    rw [take_zero, append_nil]
    rfl
  | succ n ih =>
    cases u with
    | nil =>
      rw [read_nil]
      exact ⟨Nat.zero_le _, by rw [take_zero, append_nil], hdst⟩
    | cons c u =>
      cases hc : plain c with
      | false =>
        rcases not_plain hc with rfl | rfl
        · rw [read_newline]
          refine ⟨Nat.succ_le_succ (Nat.zero_le _), rfl, ?_, ?_, nofun⟩
          · show newline ∉ (dst ++ [newline]).dropLast
            rw [dropLast_concat]
            exact (hfine hdst).1
          · show ctrl 'D' ∉ dst ++ [newline]
            rw [mem_append, mem_singleton]
            rintro (hm | he)
            · exact (hfine hdst).2 hm
            · exact absurd he (by decide)
        · rw [read_eof]
          by_cases h0 : dst = []
          · rw [if_pos h0, h0]
            exact ⟨Nat.succ_le_succ (Nat.zero_le _), rfl, not_mem_nil, not_mem_nil, fun _ => rfl⟩
          · rw [if_neg h0]
            refine ⟨Nat.zero_le _, ?_, fun hm => (hfine hdst).1 (mem_of_mem_dropLast hm),
              (hfine hdst).2, nofun⟩
            rw [take_zero, append_nil]
            rfl
      | true =>
        have hdst' : ∀ x ∈ dst ++ [c], plain x = true := by
          intro x hx
          rcases mem_append.1 hx with hx | hx
          · exact hdst x hx
          · rw [mem_singleton.1 hx]
            exact hc
        have hstep := ih (u := u) hdst'
        rw [read_plain hc]
        cases hp : read n (dst ++ [c]) u with
        | done x used =>
          rw [hp] at hstep
          obtain ⟨hle, htaken, hrest⟩ := hstep
          refine ⟨Nat.succ_le_succ hle, ?_, hrest⟩
          rw [htaken, take_succ_cons, append_assoc]
          rfl
        | waits m dst' used =>
          rw [hp] at hstep
          obtain ⟨hle, htaken, hplain⟩ := hstep
          refine ⟨Nat.succ_le_succ hle, ?_, hplain⟩
          rw [htaken, take_succ_cons, append_assoc]
          rfl

namespace Session

/-- The editor only adds to what has been committed. -/
theorem key_committed (a : Editor) (c : UInt8) :
    (a.key c).pos = a.pos ∧ ∃ l, (a.key c).committed = a.committed ++ l := by
  have hsame : a.pos = a.pos ∧ ∃ l, a.committed = a.committed ++ l := ⟨rfl, [], (append_nil _).symm⟩
  unfold Editor.key
  split
  · exact hsame
  · split
    · exact hsame
    · split
      · exact hsame
      · split
        · exact hsame
        · unfold Editor.insert
          dsimp only
          generalize (if c = carriage then newline else c) = d
          split
          · exact ⟨rfl, a.line ++ [_], append_assoc ..⟩
          · exact hsame

theorem Delivered.intr {a : Session} (h : a.Delivered) (cs : List UInt8) :
    Delivered { a with editor := cs.foldl (fun a c => a.key c) a.editor } := by
  induction cs generalizing a with
  | nil => exact h
  | cons c cs ih =>
    obtain ⟨hpos, l, hl⟩ := key_committed a.editor c
    refine ih (a := { a with editor := a.editor.key c }) ⟨?_, ?_, h.got, h.newline, h.ctrlD, h.eof⟩
    · show _ = (a.editor.key c).committed.take (a.editor.key c).pos
      rw [hpos, hl, take_append_of_le_length h.pos]
      exact h.order
    · show (a.editor.key c).pos ≤ (a.editor.key c).committed.length
      have := h.pos
      rw [hpos, hl, length_append]
      omega

/-- A read that has `dst` goes on. -/
theorem Delivered.run {a : Session} (h : a.Delivered) (n : Nat) {dst : List UInt8}
    (hgot : a.got = dst) : (a.run n dst).Delivered := by
  subst hgot
  have htaken := read_taken n (u := a.editor.unread) h.got
  have hpos := h.pos
  have horder : ∀ used, a.editor.committed.take (a.editor.pos + used) =
      a.out.flatMap Result.taken ++ (a.got ++ a.editor.unread.take used) := by
    intro used
    rw [take_add, ← h.order, append_assoc]
    rfl
  have hlen : a.editor.unread.length = a.editor.committed.length - a.editor.pos := length_drop
  unfold Session.run
  cases hp : read n a.got a.editor.unread with
  | done x used =>
    rw [hp] at htaken
    obtain ⟨hle, hx, hnl, hD, heof⟩ := htaken
    have hall : ∀ {P : Result → Prop}, (∀ y ∈ a.out, P y) → P x → ∀ y ∈ a.out ++ [x], P y := by
      intro P hout hx y hy
      rcases mem_append.1 hy with hy | hy
      · exact hout y hy
      · rw [mem_singleton.1 hy]
        exact hx
    refine ⟨?_, ?_, nofun, hall h.newline hnl, hall h.ctrlD hD, hall h.eof heof⟩
    · show (a.out ++ [x]).flatMap Result.taken ++ [] = a.editor.committed.take (a.editor.pos + used)
      rw [append_nil, flatMap_append, flatMap_singleton, hx, horder]
    · show a.editor.pos + used ≤ a.editor.committed.length
      omega
  | waits m dst' used =>
    rw [hp] at htaken
    obtain ⟨hle, hx, hplain⟩ := htaken
    refine ⟨?_, ?_, hplain, h.newline, h.ctrlD, h.eof⟩
    · show a.out.flatMap Result.taken ++ dst' = a.editor.committed.take (a.editor.pos + used)
      rw [hx, horder]
    · show a.editor.pos + used ≤ a.editor.committed.length
      omega

theorem Delivered.exec {a a' : Session} {act : Act} (h : a.Delivered) (hrun : a.exec act = some a') :
    a'.Delivered := by
  cases act with
  | intr cs =>
    cases hrun
    exact h.intr cs
  | read n =>
    rw [Session.exec] at hrun
    split at hrun
    · next hnone =>
      cases hrun
      refine h.run _ ?_
      rw [Session.got, Option.isNone_iff_eq_none.1 hnone]
      rfl
    · cases hrun
  | resume =>
    rw [Session.exec] at hrun
    obtain ⟨c, hc, rfl⟩ := Option.map_eq_some_iff.1 hrun
    refine h.run _ ?_
    rw [Session.got, hc]
    rfl

end Session

/-- The code and the editor are at the same point. -/
structure Refines (s : State) (a : Session) : Prop where
  editing : Editing s.input a.editor
  call : s.call.map (fun c => (c.n, c.dst)) = a.call
  target : ∀ c, s.call = some c → c.target = c.dst.length + c.n
  out : s.out = a.out.map fun x => (x.bytes.length, x.bytes)

section
variable {s : State} {a : Session}

theorem Refines.run (h : Refines s a) (c : Call) (ht : c.target = c.dst.length + c.n) :
    Refines (s.run c) (a.run c.n c.dst) := by
  have hread := Editing.read c.n h.editing ht
  unfold State.run Session.run
  cases hp : read c.n c.dst a.editor.unread with
  | done x used =>
    rw [hp] at hread
    obtain ⟨i', hrun, hed⟩ := hread
    rw [hrun]
    refine ⟨hed, rfl, nofun, ?_⟩
    show s.out ++ [(x.bytes.length, x.bytes)] = (a.out ++ [x]).map _
    rw [map_append, h.out]
    rfl
  | waits m dst' used =>
    rw [hp] at hread
    obtain ⟨i', hrun, hed, ht'⟩ := hread
    rw [hrun]
    refine ⟨hed, rfl, fun d hd => ?_, h.out⟩
    cases hd
    exact ht'

/-- One step of the code is one step of the editor, and the other way round. -/
theorem Refines.exec (h : Refines s a) (act : Act) :
    match s.exec act with
    | none => a.exec act = none
    | some s' => ∃ a', a.exec act = some a' ∧ Refines s' a' := by
  cases act with
  | intr cs => exact ⟨_, rfl, h.editing.intr cs, h.call, h.target, h.out⟩
  | read n =>
    rw [State.exec, Session.exec, ← h.call, Option.isNone_map]
    by_cases hnone : s.call.isNone = true
    · rw [if_pos hnone, if_pos hnone]
      exact ⟨_, rfl, h.run ⟨n.toNat, n.toNat, []⟩ (Nat.zero_add _).symm⟩
    · rw [if_neg hnone, if_neg hnone]
  | resume =>
    rw [State.exec, Session.exec, ← h.call]
    cases hc : s.call with
    | none => rfl
    | some c => exact ⟨_, rfl, h.run c (h.target c hc)⟩

theorem Refines.follow (h : Refines s a) (hd : a.Delivered) (acts : List Act) :
    match System.follow State.exec acts s with
    | none => System.follow Session.exec acts a = none
    | some s' => ∃ a', System.follow Session.exec acts a = some a' ∧ Refines s' a' ∧ a'.Delivered := by
  induction acts generalizing s a with
  | nil => exact ⟨a, rfl, h, hd⟩
  | cons act acts ih =>
    have hstep := h.exec act
    rw [System.follow, System.follow]
    cases hs : s.exec act with
    | none =>
      rw [hs] at hstep
      rw [hstep]
      rfl
    | some s' =>
      rw [hs] at hstep
      obtain ⟨a', ha, h'⟩ := hstep
      rw [ha]
      exact ih h' (hd.exec ha)

end

theorem refines_start (buf : Fin INPUT_BUF → UInt8) : Refines (.start buf) .start where
  editing := ⟨Ring.Holds.start rfl rfl, rfl, Nat.le_refl _, not_mem_nil⟩
  call := rfl
  target := nofun
  out := rfl

/-- A run of the console is a run of the line editor, with the same results: the characters that were
committed, in order. -/
theorem console_line_editor (buf : Fin INPUT_BUF → UInt8) (acts : List Act) :
    match System.follow State.exec acts (.start buf) with
    | none => System.follow Session.exec acts .start = none
    | some s => ∃ a, System.follow Session.exec acts .start = some a ∧
        (s.input.w - s.input.r).toNat ≤ (s.input.e - s.input.r).toNat ∧
        (s.input.e - s.input.r).toNat ≤ INPUT_BUF ∧
        s.out = a.out.map (fun x => (x.bytes.length, x.bytes)) ∧ a.Delivered := by
  have hstart : Session.start.Delivered := ⟨rfl, Nat.le_refl _, nofun, nofun, nofun, nofun⟩
  have hrun := (refines_start buf).follow hstart acts
  cases hs : System.follow State.exec acts (.start buf) with
  | none =>
    rw [hs] at hrun
    exact hrun
  | some s =>
    rw [hs] at hrun
    obtain ⟨a, ha, href, hdel⟩ := hrun
    have hle := href.editing.ring.le
    rw [length_append] at hle
    refine ⟨a, ha, ?_, ?_, href.out, hdel⟩
    · rw [href.editing.w_sub, href.editing.e_sub]
      exact Nat.le_add_right ..
    · rw [href.editing.e_sub]
      exact hle

end Xv6.Console
