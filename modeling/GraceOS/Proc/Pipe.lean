import GraceOS.Lib.Ring
import GraceOS.Lib.Machine

/-!
# Pipes

The functions of `pipe.c`. A pipe is a ring of bytes with a count of what is in it, and the numbers of
its open ends. A spinlock is held for a whole function and has no part in the model.
-/

namespace graceos.proc

open machine

def PIPE_TABLE_SIZE : Nat := 64
def PIPE_BUFFER_SIZE : Nat := 4096

/-- `pipe_t`. -/
structure Pipe where
  buf : Nat → UInt8
  read_pos : Nat
  write_pos : Nat
  count : Nat
  readers : Int
  writers : Int
  valid : Bool

/-- A pipe after `memset(…, 0, …)`. -/
def Pipe.zero : Pipe := ⟨fun _ => 0, 0, 0, 0, 0, 0, false⟩

namespace Pipe

/-- The loop of `pipe_read`, with the bytes it stores in the caller's buffer. -/
def drain (p : Pipe) : (left : Nat) → List UInt8 × Pipe
  | 0 => ([], p)
  | left + 1 =>
    if p.count > 0 then
      let r := drain { p with
        read_pos := (p.read_pos + 1) % PIPE_BUFFER_SIZE
        count := p.count - 1 } left
      (p.buf p.read_pos :: r.1, r.2)
    else ([], p)

/-- The loop of `pipe_write`, with the number of bytes it takes from `src` on. -/
def fill (p : Pipe) (src : Nat → UInt8) (written : Nat) : (left : Nat) → Nat × Pipe
  | 0 => (written, p)
  | left + 1 =>
    if p.count < PIPE_BUFFER_SIZE then
      fill { p with
        buf := Function.update p.buf p.write_pos (src written)
        write_pos := (p.write_pos + 1) % PIPE_BUFFER_SIZE
        count := p.count + 1 } src (written + 1) left
    else (written, p)

/-- The check that frees a slot when both ends are closed. -/
def release (p : Pipe) : Pipe := if p.readers = 0 ∧ p.writers = 0 then { p with valid := false } else p

def close_read (p : Pipe) : Pipe :=
  (if p.valid ∧ p.readers > 0 then { p with readers := p.readers - 1 } else p).release

def close_write (p : Pipe) : Pipe :=
  (if p.valid ∧ p.writers > 0 then { p with writers := p.writers - 1 } else p).release

end Pipe

/-- `pipe_table`. -/
abbrev Pipes := Nat → Pipe

namespace Pipes

variable (t : Pipes)

/-- The bound check on a pipe id. -/
def slot (pipe_id : Int) : Option Nat :=
  if pipe_id < 0 ∨ pipe_id ≥ PIPE_TABLE_SIZE then none else some pipe_id.toNat

def pipe_init : Pipes := fun _ => .zero

def pipe_alloc : Int × Pipes :=
  match (List.range PIPE_TABLE_SIZE).find? fun i => !(t i).valid with
  | some i => (i, Function.update t i { Pipe.zero with valid := true, readers := 1, writers := 1 })
  | none => (-1, t)

/-- The result of `pipe_read`, the bytes it stores, and the table. -/
def pipe_read (pipe_id len : Int) : Int × List UInt8 × Pipes :=
  match slot pipe_id with
  | none => (-1, [], t)
  | some i =>
    if !(t i).valid then (-1, [], t)
    else if (t i).count = 0 then (if (t i).writers = 0 then 0 else -2, [], t)
    else
      let r := (t i).drain len.toNat
      (r.1.length, r.1, Function.update t i r.2)

def pipe_write (pipe_id : Int) (src : Nat → UInt8) (len : Int) : Int × Pipes :=
  match slot pipe_id with
  | none => (-1, t)
  | some i =>
    if !(t i).valid ∨ (t i).readers = 0 then (-1, t)
    else
      let r := (t i).fill src 0 len.toNat
      (r.1, Function.update t i r.2)

def pipe_close_read (pipe_id : Int) : Pipes :=
  match slot pipe_id with
  | none => t
  | some i => Function.update t i (t i).close_read

def pipe_close_write (pipe_id : Int) : Pipes :=
  match slot pipe_id with
  | none => t
  | some i => Function.update t i (t i).close_write

/-- A new pipe, of which both ends are open once. -/
def fresh : Pipe := { Pipe.zero with valid := true, readers := 1, writers := 1 }

theorem pipe_alloc_cases : (∃ i < PIPE_TABLE_SIZE, (t i).valid = false ∧
    t.pipe_alloc = ((i : Int), Function.update t i fresh)) ∨ t.pipe_alloc = (-1, t) := by
  rw [pipe_alloc]
  cases hfind : (List.range PIPE_TABLE_SIZE).find? fun i => !(t i).valid with
  | some i =>
    have hmem := List.mem_range.mp (List.mem_of_find?_eq_some hfind)
    have hfree := List.find?_some hfind
    exact .inl ⟨i, hmem, by simpa using hfree, rfl⟩
  | none => exact .inr rfl

end Pipes

/-! ## The ring of a pipe -/

namespace Pipe

variable {p : Pipe}

/-- The bytes in a pipe. -/
def bytes (p : Pipe) : List UInt8 := ring.contents p.buf PIPE_BUFFER_SIZE p.read_pos p.count

@[simp] theorem length_bytes : p.bytes.length = p.count := ring.length_contents

/-- The three indices of a pipe go together. -/
structure Ring (p : Pipe) : Prop where
  read_lt : p.read_pos < PIPE_BUFFER_SIZE
  count_le : p.count ≤ PIPE_BUFFER_SIZE
  write_eq : p.write_pos = (p.read_pos + p.count) % PIPE_BUFFER_SIZE

/-- The same ends. -/
structure SameEnds (p p' : Pipe) : Prop where
  readers : p'.readers = p.readers
  writers : p'.writers = p.writers
  valid : p'.valid = p.valid

theorem drain_spec (hr : p.Ring) (left : Nat) :
    (p.drain left).2.Ring ∧ (p.drain left).1 ++ (p.drain left).2.bytes = p.bytes ∧
    (p.drain left).1.length = min left p.count ∧ SameEnds p (p.drain left).2 := by
  induction left generalizing p with
  | zero => exact ⟨hr, rfl, by simp [drain], rfl, rfl, rfl⟩
  | succ left ih =>
    rw [drain]
    split
    · next hpos =>
      generalize hnew : ({ p with
        read_pos := (p.read_pos + 1) % PIPE_BUFFER_SIZE
        count := p.count - 1 } : Pipe) = new
      obtain ⟨n, hn⟩ : ∃ n, p.count = n + 1 := ⟨p.count - 1, by omega⟩
      have hle := hr.count_le
      have hcount : new.count = n := by
        subst hnew
        simp [hn]
      have hring : new.Ring := by
        refine ⟨?_, by omega, ?_⟩
        · subst hnew
          exact Nat.mod_lt _ (by decide)
        · rw [hcount]
          subst hnew
          dsimp only
          rw [hr.write_eq, hn, ring.end_pop]
      have hbytes : p.bytes = p.buf p.read_pos :: new.bytes := by
        rw [bytes, hn, ring.contents_pop, Nat.mod_eq_of_lt hr.read_lt, bytes, hcount]
        subst hnew
        rfl
      obtain ⟨hring', hrest, hlength, hends⟩ := ih hring
      refine ⟨hring', ?_, ?_, ?_⟩
      · dsimp only
        rw [List.cons_append, hrest, hbytes]
      · dsimp only
        rw [List.length_cons, hlength, hcount, hn]
        omega
      · subst hnew
        exact ⟨hends.readers, hends.writers, hends.valid⟩
    · exact ⟨hr, rfl, by simp; omega, rfl, rfl, rfl⟩

theorem fill_spec (hr : p.Ring) (src : Nat → UInt8) (written left : Nat) :
    (p.fill src written left).2.Ring ∧
    (p.fill src written left).1 = written + min left (PIPE_BUFFER_SIZE - p.count) ∧
    (p.fill src written left).2.bytes =
      p.bytes ++ (List.range' written ((p.fill src written left).1 - written)).map src ∧
    SameEnds p (p.fill src written left).2 := by
  induction left generalizing p written with
  | zero => exact ⟨hr, by simp [fill], by simp [fill], rfl, rfl, rfl⟩
  | succ left ih =>
    rw [fill]
    split
    · next hroom =>
      generalize hnew : ({ p with
        buf := Function.update p.buf p.write_pos (src written)
        write_pos := (p.write_pos + 1) % PIPE_BUFFER_SIZE
        count := p.count + 1 } : Pipe) = new
      have hcount : new.count = p.count + 1 := by
        subst hnew
        rfl
      have hring : new.Ring := by
        refine ⟨?_, by omega, ?_⟩
        · subst hnew
          exact hr.read_lt
        · rw [hcount]
          subst hnew
          dsimp only
          rw [hr.write_eq, Nat.mod_add_mod, Nat.add_assoc]
      have hbytes : new.bytes = p.bytes ++ [src written] := by
        rw [bytes, hcount]
        subst hnew
        dsimp only
        rw [hr.write_eq, ring.contents_push hroom, bytes]
      obtain ⟨hring', hnum, hrest, hends⟩ := ih hring (written + 1)
      rw [hcount] at hnum
      refine ⟨hring', by omega, ?_, ?_⟩
      · rw [hrest, hbytes, List.append_assoc]
        congr 1
        rw [show (new.fill src (written + 1) left).1 - written = (new.fill src (written + 1) left).1 - (written + 1) + 1
          by omega, List.range'_succ, List.map_cons, List.singleton_append]
      · subst hnew
        exact ⟨hends.readers, hends.writers, hends.valid⟩
    · exact ⟨hr, by omega, by simp, rfl, rfl, rfl⟩

end Pipe

/-! ## Streams through pipes -/

/-- The table of pipes with, for each slot, the bytes that its writers had accepted and those that its
readers were given since it was allocated. -/
structure Streams where
  pipes : Pipes
  accepted : Nat → List UInt8
  returned : Nat → List UInt8

namespace Streams

inductive Call where
  | alloc
  | read (pipe_id len : Int)
  | write (pipe_id : Int) (src : Nat → UInt8) (len : Int)
  | close_read (pipe_id : Int)
  | close_write (pipe_id : Int)

def init : Streams := ⟨Pipes.pipe_init, fun _ => [], fun _ => []⟩

/-- A log is extended for the slot of a pipe id. -/
def extend (log : Nat → List UInt8) (pipe_id : Int) (bytes : List UInt8) : Nat → List UInt8 :=
  match Pipes.slot pipe_id with
  | none => log
  | some i => Function.update log i (log i ++ bytes)

def step (s : Streams) : Call → Streams
  | .alloc =>
    let r := s.pipes.pipe_alloc
    ⟨r.2, fun i => if r.1 = i then [] else s.accepted i, fun i => if r.1 = i then [] else s.returned i⟩
  | .read pipe_id len =>
    let r := s.pipes.pipe_read pipe_id len
    ⟨r.2.2, s.accepted, extend s.returned pipe_id r.2.1⟩
  | .write pipe_id src len =>
    let r := s.pipes.pipe_write pipe_id src len
    ⟨r.2, extend s.accepted pipe_id ((List.range r.1.toNat).map src), s.returned⟩
  | .close_read pipe_id => { s with pipes := s.pipes.pipe_close_read pipe_id }
  | .close_write pipe_id => { s with pipes := s.pipes.pipe_close_write pipe_id }

/-- A pipe holds what was accepted and not returned. -/
structure Sound (s : Streams) : Prop where
  ring : ∀ i, (s.pipes i).Ring
  stream : ∀ i, s.returned i ++ (s.pipes i).bytes = s.accepted i

variable {s : Streams}

theorem Sound.update (hs : s.Sound) (i : Nat) {p : Pipe} (accepted returned : List UInt8) (hring : p.Ring)
    (hstream : returned ++ p.bytes = accepted) :
    Sound ⟨Function.update s.pipes i p, Function.update s.accepted i accepted,
      Function.update s.returned i returned⟩ := by
  refine ⟨fun j => ?_, fun j => ?_⟩
  · by_cases hj : j = i
    · simp [hj, hring]
    · simp [hj, hs.ring j]
  · by_cases hj : j = i
    · simp [hj, hstream]
    · simp [hj, hs.stream j]

theorem close_read_ring (p : Pipe) : p.close_read.bytes = p.bytes ∧ (p.Ring → p.close_read.Ring) := by
  rw [Pipe.close_read, Pipe.release]
  split_ifs <;> exact ⟨rfl, fun h => ⟨h.read_lt, h.count_le, h.write_eq⟩⟩

theorem close_write_ring (p : Pipe) : p.close_write.bytes = p.bytes ∧ (p.Ring → p.close_write.Ring) := by
  rw [Pipe.close_write, Pipe.release]
  split_ifs <;> exact ⟨rfl, fun h => ⟨h.read_lt, h.count_le, h.write_eq⟩⟩

theorem Sound.close (hs : s.Sound) {i : Nat} {p : Pipe} (hbytes : p.bytes = (s.pipes i).bytes)
    (hring : (s.pipes i).Ring → p.Ring) : Sound { s with pipes := Function.update s.pipes i p } := by
  have hupdate := hs.update i (s.accepted i) (s.returned i) (hring (hs.ring i))
    (by rw [hbytes]; exact hs.stream i)
  rwa [Function.update_eq_self, Function.update_eq_self] at hupdate

theorem Sound.alloc (hs : s.Sound) : (s.step .alloc).Sound := by
  rcases s.pipes.pipe_alloc_cases with ⟨i, -, -, halloc⟩ | hfull
  · simp only [step, halloc]
    refine ⟨fun j => ?_, fun j => ?_⟩
    · by_cases hj : j = i
      · subst hj
        simp only [Function.update_self]
        exact ⟨by decide, Nat.zero_le _, rfl⟩
      · simpa [hj] using hs.ring j
    · by_cases hj : j = i
      · subst hj
        simp [Pipe.bytes, Pipes.fresh, Pipe.zero]
      · have hne : ¬ (i : Int) = j := fun h => hj (by omega)
        simpa [hj, hne] using hs.stream j
  · have hne : ∀ j : Nat, ¬ (-1 : Int) = j := fun j => by omega
    simp only [step, hfull]
    simpa [hne] using hs

theorem Sound.read (hs : s.Sound) (pipe_id len : Int) : (s.step (.read pipe_id len)).Sound := by
  simp only [step, Pipes.pipe_read, extend]
  cases hslot : Pipes.slot pipe_id with
  | none => exact hs
  | some i =>
    dsimp only
    have hsame : Function.update s.returned i (s.returned i ++ []) = s.returned := by
      rw [List.append_nil, Function.update_eq_self]
    split_ifs
    · dsimp only
      rwa [hsame]
    · dsimp only
      rwa [hsame]
    · dsimp only
      rwa [hsame]
    · obtain ⟨hring, hbytes, -, -⟩ := (s.pipes i).drain_spec (hs.ring i) len.toNat
      have hupdate := hs.update i (s.accepted i) (s.returned i ++ _) hring
        (by rw [List.append_assoc, hbytes]; exact hs.stream i)
      rwa [Function.update_eq_self] at hupdate

theorem Sound.write (hs : s.Sound) (pipe_id : Int) (src : Nat → UInt8) (len : Int) :
    (s.step (.write pipe_id src len)).Sound := by
  simp only [step, Pipes.pipe_write, extend]
  cases hslot : Pipes.slot pipe_id with
  | none => exact hs
  | some i =>
    dsimp only
    split_ifs
    · have hnone : (List.range (Int.toNat (-1))).map src = [] := rfl
      rw [hnone, List.append_nil, Function.update_eq_self]
      exact hs
    · obtain ⟨hring, -, hbytes, -⟩ := (s.pipes i).fill_spec (hs.ring i) src 0 len.toNat
      have hupdate := hs.update i (s.accepted i ++ (List.range ((s.pipes i).fill src 0 len.toNat).1).map src)
        (s.returned i) hring ?_
      · rw [Function.update_eq_self] at hupdate
        simpa using hupdate
      · rw [hbytes, ← List.append_assoc, hs.stream i, Nat.sub_zero, List.range_eq_range']

theorem Sound.step (hs : s.Sound) (call : Call) : (s.step call).Sound := by
  cases call with
  | alloc => exact hs.alloc
  | read pipe_id len => exact hs.read pipe_id len
  | write pipe_id src len => exact hs.write pipe_id src len
  | close_read pipe_id =>
    simp only [Streams.step, Pipes.pipe_close_read]
    split
    · exact hs
    · exact hs.close (close_read_ring _).1 (close_read_ring _).2
  | close_write pipe_id =>
    simp only [Streams.step, Pipes.pipe_close_write]
    split
    · exact hs
    · exact hs.close (close_write_ring _).1 (close_write_ring _).2

theorem init_sound : init.Sound :=
  have hlt : 0 < PIPE_BUFFER_SIZE := by decide
  ⟨fun _ => ⟨hlt, Nat.zero_le _, rfl⟩, fun _ => rfl⟩

end Streams

/-- In every state that calls reach, a pipe has returned the beginning of what it accepted and holds
the rest. A write takes what fits while a read end is open, and nothing otherwise; a read returns
what is there; an empty pipe reports its end exactly when no writer remains. -/
theorem pipe_is_stream (calls : List Streams.Call) (pipe_id : Int) (hid : 0 ≤ pipe_id ∧ pipe_id < PIPE_TABLE_SIZE) :
    let s := run Streams.step .init calls
    let p := s.pipes pipe_id.toNat
    (s.returned pipe_id.toNat <+: s.accepted pipe_id.toNat ∧
      (s.accepted pipe_id.toNat).length = (s.returned pipe_id.toNat).length + p.count ∧ p.count ≤ 4096) ∧
    (p.valid = true → ∀ src len, 0 ≤ len → (s.pipes.pipe_write pipe_id src len).1 =
      if p.readers = 0 then -1 else min len (4096 - p.count)) ∧
    (p.valid = true → 0 < p.count → ∀ len, 0 ≤ len → (s.pipes.pipe_read pipe_id len).1 = min len p.count) ∧
    (p.valid = true → p.count = 0 → ∀ len, (s.pipes.pipe_read pipe_id len).1 = 0 ↔ p.writers = 0) := by
  intro s p
  have hs : s.Sound := (Along.of_forall (P := fun _ _ => True) (fun _ _ => trivial) calls).invariant
    (I := Streams.Sound) (fun _ call hs _ => hs.step call) Streams.init_sound
  have hslot : Pipes.slot pipe_id = some pipe_id.toNat := by
    rw [Pipes.slot, if_neg (by omega)]
  have hring : p.Ring := hs.ring _
  have hstream : s.returned pipe_id.toNat ++ p.bytes = s.accepted pipe_id.toNat := hs.stream _
  have hcount := hring.count_le
  simp only [PIPE_BUFFER_SIZE] at hcount
  refine ⟨⟨⟨_, hstream⟩, ?_, hcount⟩, fun hvalid src len hlen => ?_, fun hvalid hpos len hlen => ?_,
    fun hvalid hzero len => ?_⟩
  · rw [← hstream, List.length_append, Pipe.length_bytes]
  · rw [Pipes.pipe_write, hslot]
    change (if !p.valid ∨ p.readers = 0 then ((-1 : Int), s.pipes) else _).1 = _
    by_cases hreaders : p.readers = 0
    · rw [if_pos (.inr hreaders), if_pos hreaders]
    · rw [if_neg (by simp [hvalid, hreaders]), if_neg hreaders]
      have hnum := (p.fill_spec hring src 0 len.toNat).2.1
      simp only [PIPE_BUFFER_SIZE] at hnum
      change ((p.fill src 0 len.toNat).1 : Int) = _
      omega
  · rw [Pipes.pipe_read, hslot]
    change (if !p.valid then ((-1 : Int), [], s.pipes) else if p.count = 0 then _ else _).1 = _
    rw [if_neg (by simp [hvalid]), if_neg (by omega)]
    have hnum := (p.drain_spec hring len.toNat).2.2.1
    change ((p.drain len.toNat).1.length : Int) = _
    omega
  · rw [Pipes.pipe_read, hslot]
    change (if !p.valid then ((-1 : Int), [], s.pipes) else if p.count = 0 then (if p.writers = 0 then 0 else -2, [],
      s.pipes) else _).1 = 0 ↔ _
    rw [if_neg (by simp [hvalid]), if_pos hzero]
    dsimp only
    split
    · next hw => simp [hw]
    · next hw => simp [hw]

/-- Two bytes are written, and one of them is read. -/
theorem pipe_returns_first_byte :
    let s := run Streams.step .init [.alloc, .write 0 (fun i => UInt8.ofNat (i + 7)) 2, .read 0 1]
    s.returned 0 = [7] ∧ s.accepted 0 = [7, 8] ∧ s.returned 0 <+: s.accepted 0 := by
  intro s
  refine ⟨by decide +kernel, by decide +kernel, ?_⟩
  exact (pipe_is_stream [.alloc, .write 0 (fun i => UInt8.ofNat (i + 7)) 2, .read 0 1] 0 (by decide)).1.1

/-- A write to an empty pipe whose read end is closed takes nothing. -/
theorem broken_pipe_takes_nothing :
    let s := run Streams.step .init [.alloc, .close_read 0]
    (s.pipes 0).valid = true ∧ (s.pipes 0).count = 0 ∧ (s.pipes.pipe_write 0 (fun _ => 7) 1).1 = -1 := by
  decide +kernel

end graceos.proc
