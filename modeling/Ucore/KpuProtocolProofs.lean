import Ucore.KpuProtocol

/-! With one device call at a time the request in the globals is always the
sleeper's own. Chunks arrive in `bufs` in order, `add_kpu_task` joins and frees
them, and the task it makes carries the submission of its sender; malformed
chunks that cannot complete a submission do no harm to the protocol. -/
namespace Ucore.KpuProtocol
open KpuSpooling DevKpuio Runs

variable {kpu : Kpuio} {traced : Traced} {chunks : List (List UInt8)} {block : Grant}

/-! ## Chunks in their buffers -/

theorem Chunk.data_length (chunk : Chunk) : chunk.data.length = chunk.len := by
  rw [Chunk.data, List.length_take, chunk.size]
  exact Nat.min_eq_left chunk.within

theorem toInt_small (n : Int) (low : 0 ≤ n) (high : n < 2 ^ 31) : toInt n = n :=
  Int.bmod_eq_of_le (by omega) (by omega)

/-- A header field keeps its value when more bytes follow. -/
theorem loadU64_append (loaded : loadU64 bytes offset = some value) (more : List UInt8) :
    loadU64 (bytes ++ more) offset = some value := by
  unfold loadU64 at loaded ⊢
  split at loaded
  · have inside : offset + 8 ≤ (bytes ++ more).length := by
      rw [List.length_append]
      omega
    rw [if_pos inside, ← loaded, List.drop_append_of_le_length (by omega),
      List.take_append_of_le_length (by rw [List.length_drop]; omega)]
  · cases loaded

theorem loadU64_fits (fits : offset + 8 ≤ bytes.length) :
    ∃ value, loadU64 bytes offset = some value :=
  ⟨_, if_pos fits⟩

theorem storeU64_fits (offset value : Nat) (fits : offset + 8 ≤ bytes.length) :
    ∃ after, storeU64 bytes offset value = some after :=
  ⟨_, if_pos fits⟩

/-- Writing the `jpeg` pointer leaves `jpgsize` as it is. -/
theorem load_after_store (stored : storeU64 bytes offset value = some after)
    (before : place + 8 ≤ offset) : loadU64 after place = loadU64 bytes place := by
  unfold storeU64 at stored
  split at stored
  · cases stored
    rename_i fits
    have kept : ((bytes.take offset ++ (List.range 8).map (fun i => UInt8.ofNat (value / 256 ^ i)) ++
        bytes.drop (offset + 8)).drop place).take 8 = (bytes.drop place).take 8 := by
      rw [List.append_assoc, List.drop_append_of_le_length (by simp; omega),
        List.take_append_of_le_length (by simp; omega), List.drop_take, List.take_take]
      congr 1
      omega
    unfold loadU64
    rw [kept]
    have inside : place + 8 ≤ bytes.length := by omega
    rw [if_pos inside, if_pos (by simp; omega)]
  · cases stored

/-- `Stored` reads the block table, the heap and the tasks' inputs only. -/
theorem Stored.congr (stored : Stored kpu chunks) (count : after.numblock = kpu.numblock)
    (bufs : ∀ i < kpu.numblock, after.bufs i = kpu.bufs i ∧ after.lens i = kpu.lens i ∧
      after.heap (kpu.bufs i) = kpu.heap (kpu.bufs i))
    (tasks : ∀ task ∈ after.spool.kpuTasklist, ∃ old ∈ kpu.spool.kpuTasklist,
      old.input = task.input) : Stored after chunks where
  count := count.trans stored.count
  held i chunk at_i := by
    have inside : i < kpu.numblock := stored.count ▸ (List.getElem?_eq_some_iff.mp at_i).1
    obtain ⟨buf, len, held⟩ := bufs i inside
    rw [buf, held, len]
    exact stored.held i chunk at_i
  apart i j first second same := by
    rw [count] at first second
    rw [(bufs i first).1, (bufs j second).1] at same
    exact stored.apart i j first second same
  unshared i inside task member := by
    rw [count] at inside
    obtain ⟨old, listed, input⟩ := tasks task member
    rw [(bufs i inside).1, ← input]
    exact stored.unshared i inside old listed

theorem Stored.live (stored : Stored kpu chunks) (inside : i < kpu.numblock) :
    ∃ chunk, chunks[i]? = some chunk ∧ kpu.heap (kpu.bufs i) = some (.bytes chunk) ∧
      kpu.lens i = chunk.length := by
  rw [stored.count] at inside
  exact ⟨_, List.getElem?_eq_getElem inside, stored.held i _ (List.getElem?_eq_getElem inside)⟩

/-- `add_kpu_task` copies the chunks in order and frees their buffers. -/
theorem Stored.copied (stored : Stored kpu chunks) (n : Nat) (few : n ≤ kpu.numblock) :
    ∃ heap lens, copyBlocks kpu n = some ((chunks.take n).flatten, heap, lens) ∧
      (∀ i < n, heap (kpu.bufs i) = none) ∧
      (∀ addr, (∀ i < n, kpu.bufs i ≠ addr) → heap addr = kpu.heap addr) ∧
      ∀ i, n ≤ i → lens i = kpu.lens i := by
  induction n with
  | zero => exact ⟨kpu.heap, kpu.lens, rfl, by omega, fun _ _ => rfl, fun _ _ => rfl⟩
  | succ n ih =>
    obtain ⟨heap, lens, copied, freed, kept, unread⟩ := ih (by omega)
    obtain ⟨chunk, at_n, live, len⟩ := stored.live (i := n) (by omega)
    have still : heap (kpu.bufs n) = some (.bytes chunk) := by
      rw [kept _ fun i below same => ?_, live]
      exact Nat.ne_of_lt below (stored.apart i n (by omega) (by omega) same)
    have whole : chunk.take (lens n) = chunk := by
      rw [unread n (Nat.le_refl _), len, List.take_length]
    refine ⟨Function.update heap (kpu.bufs n) none, Function.update lens n 0, ?_, ?_, ?_, ?_⟩
    · have fits : ¬ chunk.length < lens n := by rw [unread n (Nat.le_refl _), len]; omega
      simp only [copyBlocks, copied, Option.bind_eq_bind, Option.bind_some, still, fits, ↓reduceIte,
        whole, List.take_add_one, at_n, Option.toList_some, List.flatten_append,
        List.flatten_singleton]
      rfl
    · intro i below
      by_cases same : kpu.bufs i = kpu.bufs n
      · rw [same, Function.update_self]
      · have earlier : i < n := by
          rcases Nat.lt_succ_iff_lt_or_eq.mp below with earlier | rfl
          · exact earlier
          · exact absurd rfl same
        rw [Function.update_of_ne same, freed i earlier]
    · intro addr other
      rw [Function.update_of_ne (Ne.symm (other n (by omega))), kept addr fun i below => other i (by omega)]
    · intro i above
      rw [Function.update_of_ne (by omega), unread i (by omega)]

/-- `add_kpu_task` makes one task of a complete submission: its bytes, with
`jpeg` set, in a block of their own, and every chunk buffer freed. -/
theorem Stored.added (stored : Stored kpu chunks) (header : HeaderOk chunks.flatten)
    (total : kpu.totlength = chunks.flatten.length) (fresh : kpu.heap block.addr = none)
    (pid : Nat) (junk : BitVec 32) :
    ∃ heap lens buff, addKpuTask kpu pid (some block) (some junk) =
        some ({ kpu with
          heap := heap
          lens := lens
          spool := (enlistTask kpu.spool pid block.addr junk).1 },
          (enlistTask kpu.spool pid block.addr junk).2) ∧
      heap block.addr = some (.bytes buff) ∧
      storeU64 chunks.flatten jpegOffset (block.addr + kpuBuffSize) = some buff ∧
      (∀ i < kpu.numblock, heap (kpu.bufs i) = none) ∧
      ∀ addr, addr ≠ block.addr → (∀ i < kpu.numblock, kpu.bufs i ≠ addr) →
        heap addr = kpu.heap addr := by
  obtain ⟨whole, totsize, jpgsize, sized, nonzero⟩ := header
  have other : ∀ i < kpu.numblock, kpu.bufs i ≠ block.addr := by
    intro i inside same
    obtain ⟨chunk, _, live, _⟩ := stored.live inside
    rw [same, fresh] at live
    cases live
  have held : Stored { kpu with heap := Function.update kpu.heap block.addr (some (.bytes
      ((List.range chunks.flatten.length).map block.junk))) } chunks := stored.congr rfl
    (fun i inside => ⟨rfl, rfl, Function.update_of_ne (other i inside) ..⟩)
    (fun task member => ⟨task, member, rfl⟩)
  obtain ⟨heap, lens, copied, freed, kept, _⟩ := held.copied kpu.numblock (Nat.le_refl _)
  rw [stored.count, List.take_length, ← stored.count] at copied
  obtain ⟨buff, pointed⟩ := storeU64_fits jpegOffset (block.addr + kpuBuffSize) whole
  have positive : 0 < kpu.totlength := by
    simp only [kpuBuffSize] at whole
    omega
  refine ⟨Function.update heap block.addr (some (.bytes buff)), lens, buff, ?_,
    Function.update_self .., pointed, ?_, ?_⟩
  · have length : kpu.totlength.toNat = chunks.flatten.length := by rw [total]; rfl
    have filled : chunks.flatten ++ ((List.range chunks.flatten.length).map block.junk).drop
        chunks.flatten.length = chunks.flatten := by simp
    have asked : loadU64 buff jpgsizeOffset = some jpgsize :=
      (load_after_store pointed (by decide)).trans sized
    simp only [addKpuTask, positive, ↓reduceIte, length, Option.bind_eq_bind, Option.bind_some,
      copied, Nat.lt_irrefl, filled, totsize, ne_eq, not_true_eq_false, pointed, asked, nonzero]
    rfl
  · intro i inside
    rw [Function.update_of_ne (other i inside)]
    exact freed i inside
  · intro addr apart unused
    rw [Function.update_of_ne apart, kept addr unused]
    exact Function.update_of_ne apart ..

/-! ## The tasks and their blocks -/

theorem TasksServe.input_live (served : TasksServe kpu submitted)
    (member : task ∈ kpu.spool.kpuTasklist) : ∃ buff, kpu.heap task.input = some (.bytes buff) := by
  obtain ⟨k, listed⟩ := List.mem_iff_getElem?.mp member
  obtain ⟨_, _, _, buff, live, _⟩ := served k task listed
  exact ⟨buff, live⟩

/-- Steps that keep the tasks' blocks, inputs and submitters keep what they carry. -/
theorem TasksServe.keep (served : TasksServe kpu submitted) (after : Kpuio)
    (tasks : ∀ (k : Nat) (task : Task), after.spool.kpuTasklist[k]? = some task →
      ∃ old, kpu.spool.kpuTasklist[k]? = some old ∧ task.input = old.input ∧ task.proc = old.proc)
    (procs : after.spool.procs = kpu.spool.procs)
    (heap : ∀ task ∈ kpu.spool.kpuTasklist, after.heap task.input = kpu.heap task.input)
    (more : List Submission) : TasksServe after (submitted ++ more) := by
  intro k task listed
  obtain ⟨old, listedOld, input, proc⟩ := tasks k task listed
  obtain ⟨submission, at_k, owner, buff, live, pointed⟩ := served k old listedOld
  have inside := (List.getElem?_eq_some_iff.mp at_k).1
  refine ⟨submission, by rw [List.getElem?_append_left inside, at_k], ?_, buff, ?_, ?_⟩
  · rw [proc, owner, findProc, findProc, procs]
  · rw [input, heap old (List.mem_of_getElem? listedOld), live]
  · rw [input, pointed]

/-- An address that is not in use, or holds a reply, is no task's input. -/
theorem TasksServe.input_ne (served : TasksServe kpu submitted)
    (other : ∀ buff, kpu.heap addr ≠ some (.bytes buff)) :
    ∀ task ∈ kpu.spool.kpuTasklist, task.input ≠ addr := by
  intro task member same
  obtain ⟨buff, live⟩ := served.input_live member
  exact other buff (same ▸ live)

theorem Stored.bufs_ne (stored : Stored kpu chunks)
    (other : ∀ buff, kpu.heap addr ≠ some (.bytes buff)) : ∀ i < kpu.numblock, kpu.bufs i ≠ addr := by
  intro i inside same
  obtain ⟨chunk, _, live, _⟩ := stored.live inside
  exact other chunk (same ▸ live)

/-- One more chunk in a fresh block. -/
theorem Stored.push (stored : Stored kpu chunks) (chunk : Chunk) (fresh : kpu.heap addr = none)
    (inputs : ∀ task ∈ kpu.spool.kpuTasklist, task.input ≠ addr) :
    Stored (keepChunk kpu chunk addr) (chunks ++ [chunk.data]) := by
  have other : ∀ i < kpu.numblock, kpu.bufs i ≠ addr := stored.bufs_ne (by simp [fresh])
  have slot (i : Nat) (inside : i < kpu.numblock) : (keepChunk kpu chunk addr).bufs i = kpu.bufs i :=
    Function.update_of_ne (Nat.ne_of_lt inside) ..
  have last : (keepChunk kpu chunk addr).bufs kpu.numblock = addr := Function.update_self ..
  refine ⟨by simp [keepChunk, stored.count], ?_, ?_, ?_⟩
  · intro i data at_i
    by_cases inside : i < kpu.numblock
    · rw [List.getElem?_append_left (stored.count ▸ inside)] at at_i
      obtain ⟨held, len⟩ := stored.held i data at_i
      rw [slot i inside]
      simp only [keepChunk, Function.update_of_ne (other i inside), held, true_and]
      rw [Function.update_of_ne (Nat.ne_of_lt inside), len]
    · have bound := (List.getElem?_eq_some_iff.mp at_i).1
      have count := stored.count
      obtain rfl : i = kpu.numblock := by
        simp only [List.length_append, List.length_singleton] at bound
        omega
      rw [count, List.getElem?_concat_length, Option.some.injEq] at at_i
      subst at_i
      rw [last]
      simp [keepChunk, Chunk.data_length]
  · intro i j first second same
    simp only [keepChunk] at first second
    rcases Nat.lt_succ_iff_lt_or_eq.mp first with low | rfl <;>
      rcases Nat.lt_succ_iff_lt_or_eq.mp second with low' | rfl
    · rw [slot i low, slot j low'] at same
      exact stored.apart i j low low' same
    · rw [slot i low, last] at same
      exact absurd same (other i low)
    · rw [slot j low', last] at same
      exact absurd same.symm (other j low')
    · rfl
  · intro i inside task member
    rcases Nat.lt_succ_iff_lt_or_eq.mp inside with low | rfl
    · rw [slot i low]
      exact stored.unshared i low task member
    · rw [last]
      exact inputs task member

/-! ## The invariant -/

/-- At most one process is inside the device; a sleeper's request is pending,
a woken reader's answer is its own; an assembly in progress is in the buffers,
and without one no chunk can complete anything. -/
structure Inv (traced : Traced) : Prop where
  single : ∀ p q, traced.kpu.calls p ≠ none → traced.kpu.calls q ≠ none → p = q
  inside : ∀ pid, traced.kpu.calls pid ≠ none → 2 < pid ∧ findProc traced.kpu.spool pid ≠ none
  pending : ∀ pid call, traced.kpu.calls pid = some call → call.asleep = true →
    Pending traced pid call
  answered : ∀ pid call, traced.kpu.calls pid = some call → call.asleep = false →
    call.write = false → traced.kpu.heap traced.kpu.kpuresultbase =
      some (.result (resultCode (traced.answers pid)))
  quiet : traced.kpu.controller = true → (∀ pid, traced.kpu.calls pid = none) →
    traced.kpu.kpuioInit = false ∧ traced.kpu.kpuioCheck = false
  awake : traced.kpu.controller = true → ∀ pid call, traced.kpu.calls pid = some call →
    call.asleep = true
  assembling : ∀ assembly, traced.inProgress = some assembly →
    Stored traced.kpu assembly.chunks ∧ traced.kpu.totlength = assembly.total ∧
      traced.kpu.sumlen = assembly.bytes.length ∧ traced.kpu.sumlen < assembly.total ∧
      findProc traced.kpu.spool assembly.owner ≠ none
  spent : traced.inProgress = none → traced.kpu.totlength ≤ traced.kpu.sumlen
  bounded : 0 ≤ traced.kpu.sumlen ∧ traced.kpu.sumlen ≤ 4096 * traced.kpu.numblock ∧
    traced.kpu.numblock ≤ 64
  handled : Handled traced
  known : ∀ submission ∈ traced.submitted, findProc traced.kpu.spool submission.owner ≠ none
  identified : ∀ pid addr, findProc traced.kpu.spool pid = some addr →
    traced.kpu.spool.procPid addr = pid

theorem Inv.owned (inv : Inv traced) : ∀ task ∈ traced.kpu.spool.kpuTasklist, task.proc ≠ none := by
  intro task member
  obtain ⟨k, listed⟩ := List.mem_iff_getElem?.mp member
  obtain ⟨submission, at_k, owner, _⟩ := inv.handled.served k task listed
  rw [owner]
  exact inv.known submission (List.mem_of_getElem? at_k)

/-- Outside every device call the invariant is about the history only. -/
theorem Inv.of_idle (idle : Idle traced.kpu)
    (assembling : ∀ assembly, traced.inProgress = some assembly →
      Stored traced.kpu assembly.chunks ∧ traced.kpu.totlength = assembly.total ∧
        traced.kpu.sumlen = assembly.bytes.length ∧ traced.kpu.sumlen < assembly.total ∧
        findProc traced.kpu.spool assembly.owner ≠ none)
    (spent : traced.inProgress = none → traced.kpu.totlength ≤ traced.kpu.sumlen)
    (bounded : 0 ≤ traced.kpu.sumlen ∧ traced.kpu.sumlen ≤ 4096 * traced.kpu.numblock ∧
      traced.kpu.numblock ≤ 64)
    (served : TasksServe traced.kpu traced.submitted)
    (done : traced.submitted.length = traced.kpu.spool.kpuTasklist.length)
    (known : ∀ submission ∈ traced.submitted, findProc traced.kpu.spool submission.owner ≠ none)
    (identified : ∀ pid addr, findProc traced.kpu.spool pid = some addr →
      traced.kpu.spool.procPid addr = pid) : Inv traced where
  single p _ called := absurd (idle.1 p) called
  inside p called := absurd (idle.1 p) called
  pending p call called := absurd ((idle.1 p).symm.trans called) (by simp)
  answered p call called := absurd ((idle.1 p).symm.trans called) (by simp)
  quiet running := absurd (idle.2.symm.trans running) (by simp)
  awake running := absurd (idle.2.symm.trans running) (by simp)
  assembling := assembling
  spent := spent
  bounded := bounded
  handled := by
    refine ⟨served, ?_, fun _ => done⟩
    rintro ⟨p, call, called, _⟩
    exact absurd ((idle.1 p).symm.trans called) (by simp)
  known := known
  identified := identified

theorem boot_inv (held : ∀ proc ∈ procs, procPid proc.addr = proc.pid) :
    Inv (boot procs procPid) := by
  refine ⟨by simp [boot], by simp [boot], by simp [boot], by simp [boot], by simp [boot],
    by simp [boot], by simp [boot], by simp [boot], by simp [boot], ?_, by simp [boot], ?_⟩
  · exact ⟨by simp [TasksServe, boot, kpuSpoolingInit], by simp [writerAsleep, boot],
      by simp [boot, kpuSpoolingInit]⟩
  · intro pid addr found
    simp only [boot, kpuSpoolingInit, findProc, Option.map_eq_some_iff] at found ⊢
    obtain ⟨proc, found, rfl⟩ := found
    have same := List.find?_some found
    rw [held proc (List.mem_of_find?_eq_some found)]
    simpa using same

theorem push_bytes (assembly : Assembly) (chunk : Chunk) :
    (assembly.push chunk).bytes = assembly.bytes ++ chunk.data := by
  simp [Assembly.push, Assembly.bytes]

theorem first_bytes (pid : Nat) (total : Int) (chunk : Chunk) :
    (Assembly.push ⟨pid, total, []⟩ chunk).bytes = chunk.data := by
  simp [Assembly.push, Assembly.bytes]

/-! ## Writes -/

/-- The device where a chunk is about to be stored for `pid`, and the
submission the chunk belongs to. -/
structure Ready (kpu : Kpuio) (old : Option Assembly) (submitted : List Submission) (pid : Nat) :
    Prop where
  idle : Idle kpu
  caller : kpu.callerPid = pid
  user : 2 < pid ∧ findProc kpu.spool pid ≠ none
  own : ∀ assembly, old = some assembly → assembly.owner = pid ∧ Stored kpu assembly.chunks ∧
    kpu.totlength = assembly.total ∧ kpu.sumlen = assembly.bytes.length
  spent : old = none → kpu.totlength ≤ kpu.sumlen
  bounded : 0 ≤ kpu.sumlen ∧ kpu.sumlen ≤ 4096 * kpu.numblock
  room : kpu.numblock < 64
  served : TasksServe kpu submitted
  done : submitted.length = kpu.spool.kpuTasklist.length
  known : ∀ submission ∈ submitted, findProc kpu.spool submission.owner ≠ none
  identified : ∀ pid addr, findProc kpu.spool pid = some addr → kpu.spool.procPid addr = pid

variable {old : Option Assembly} {submitted : List Submission} {chunk : Chunk} {pid : Nat}

theorem Ready.sumlen (ready : Ready kpu old submitted pid) (chunk : Chunk) (addr : Nat) :
    (keepChunk kpu chunk addr).sumlen = kpu.sumlen + chunk.len := by
  have bounded := ready.bounded
  have room := ready.room
  have within := chunk.within
  exact toInt_small _ (by omega) (by omega)

theorem Ready.stored (ready : Ready kpu old submitted pid) (fresh : kpu.heap addr = none)
    (chunk : Chunk) (mine : old = some assembly) :
    Stored (keepChunk kpu chunk addr) (assembly.push chunk).chunks ∧
      (keepChunk kpu chunk addr).sumlen = (assembly.push chunk).bytes.length := by
  obtain ⟨_, stored, _, sum⟩ := ready.own assembly mine
  refine ⟨stored.push chunk fresh (ready.served.input_ne (by simp [fresh])), ?_⟩
  rw [ready.sumlen, sum, Assembly.push, Assembly.bytes, Assembly.bytes, List.flatten_append,
    List.length_append]
  simp [Chunk.data_length]

/-- The tasks are untouched by a new block. -/
theorem Ready.tasks (ready : Ready kpu old submitted pid) (fresh : kpu.heap addr = none)
    (chunk : Chunk) (more : List Submission) : TasksServe (keepChunk kpu chunk addr) (submitted ++ more) := by
  refine ready.served.keep (keepChunk kpu chunk addr)
    (fun _ task listed => ⟨task, listed, rfl, rfl⟩) rfl ?_ more
  intro task member
  exact Function.update_of_ne (ready.served.input_ne (by simp [fresh]) task member) ..

private theorem keepChunk_bounded (ready : Ready kpu old submitted pid) (addr : Nat) :
    0 ≤ (keepChunk kpu chunk addr).sumlen ∧
      (keepChunk kpu chunk addr).sumlen ≤ 4096 * (keepChunk kpu chunk addr).numblock ∧
      (keepChunk kpu chunk addr).numblock ≤ 64 := by
  rw [ready.sumlen]
  have bounded := ready.bounded
  have room := ready.room
  have within := chunk.within
  simp only [keepChunk]
  omega

/-- A chunk that completes nothing returns to its sender. -/
theorem Ready.returns (ready : Ready kpu old submitted pid) (fresh : kpu.heap block.addr = none)
    (unfinished : ∀ assembly, old = some assembly →
      ((assembly.push chunk).bytes.length : Int) ≠ assembly.total) (sie : Bool)
    (answers : Nat → Result) :
    storeChunk kpu chunk pid sie (some block) =
        some (keepChunk kpu chunk block.addr, .returned 0 sie) ∧
      Inv ⟨keepChunk kpu chunk block.addr, (record submitted (old.map (·.push chunk))).1,
        (record submitted (old.map (·.push chunk))).2, answers⟩ := by
  have idle := ready.idle
  have sum := ready.sumlen chunk block.addr
  have positive := chunk.positive
  have tasks := ready.tasks fresh chunk []
  rw [List.append_nil] at tasks
  have apart : (keepChunk kpu chunk block.addr).sumlen ≠ kpu.totlength := by
    cases mine : old with
    | none =>
      have spent := ready.spent mine
      omega
    | some assembly =>
      rw [(ready.stored fresh chunk mine).2, (ready.own assembly mine).2.2.1]
      exact unfinished assembly mine
  have recorded : (record submitted (old.map (·.push chunk))).2 = submitted := by
    cases mine : old with
    | none => rfl
    | some assembly =>
      have unequal : ((assembly.push chunk).bytes.length : Int) ≠ (assembly.push chunk).total :=
        unfinished assembly mine
      simp only [Option.map_some, record, unequal, ↓reduceIte]
      split <;> rfl
  refine ⟨?_, ?_⟩
  · simp only [storeChunk, ready.room, ↓reduceIte, Option.bind_eq_bind, Option.bind_some]
    exact if_neg apart
  · rw [recorded]
    refine Inv.of_idle idle ?_ ?_ (keepChunk_bounded ready _) tasks ready.done ready.known
      ready.identified
    · intro assembly progress
      cases mine : old with
      | none => simp [mine, record] at progress
      | some earlier =>
        have unequal : ((earlier.push chunk).bytes.length : Int) ≠ (earlier.push chunk).total :=
          unfinished earlier mine
        simp only [mine, Option.map_some, record, unequal, ↓reduceIte] at progress
        split at progress
        · rename_i short
          cases progress
          obtain ⟨owner, _, total, _⟩ := ready.own earlier mine
          obtain ⟨stored, length⟩ := ready.stored fresh chunk mine
          refine ⟨stored, total, length, ?_, ?_⟩
          · rw [length]
            exact short
          · exact owner ▸ ready.user.2
        · cases progress
    · intro given
      cases mine : old with
      | none =>
        have spent := ready.spent mine
        simp only [keepChunk] at sum ⊢
        omega
      | some earlier =>
        have unequal : ((earlier.push chunk).bytes.length : Int) ≠ (earlier.push chunk).total :=
          unfinished earlier mine
        simp only [mine, Option.map_some, record, unequal, ↓reduceIte] at given
        split at given
        · cases given
        · rename_i long
          obtain ⟨_, length⟩ := ready.stored fresh chunk mine
          have total := (ready.own earlier mine).2.2.1
          have same : (earlier.push chunk).total = earlier.total := rfl
          show kpu.totlength ≤ (keepChunk kpu chunk block.addr).sumlen
          omega

/-- From the idle device only the caller is inside it. -/
theorem sleepFor_only (idle : ∀ p, kpu.calls p = none) :
    ∀ p call, (sleepFor kpu pid write sie).calls p = some call →
      p = pid ∧ call = ⟨write, true, sie⟩ := by
  intro p call called
  by_cases same : p = pid
  · subst same
    simp only [sleepFor, Function.update_self, Option.some.injEq] at called
    exact ⟨rfl, called.symm⟩
  · simp only [sleepFor, Function.update_of_ne same, idle p] at called
    cases called

/-- A chunk that completes a submission puts its sender to sleep with the
request in the globals. -/
theorem Ready.completes (ready : Ready kpu old submitted pid) (fresh : kpu.heap block.addr = none)
    (mine : old = some assembly)
    (finished : ((assembly.push chunk).bytes.length : Int) = assembly.total)
    (header : HeaderOk (assembly.push chunk).bytes) (sie : Bool) (answers : Nat → Result) :
    ∃ after, storeChunk kpu chunk pid sie (some block) = some (after, .sleeping) ∧
      Inv ⟨after, none, submitted ++ [⟨pid, (assembly.push chunk).bytes⟩], answers⟩ ∧
      Stored after (assembly.push chunk).chunks ∧ after.sumlen = assembly.total ∧
      after.totlength = assembly.total ∧ after.calls pid = some ⟨true, true, sie⟩ := by
  have idle := ready.idle
  obtain ⟨stored, sum⟩ := ready.stored fresh chunk mine
  have total := (ready.own assembly mine).2.2.1
  let after := sleepFor { keepChunk kpu chunk block.addr with
    kpuioInit := true, kpuioCheck := false } pid true sie
  have asleep : after.calls pid = some ⟨true, true, sie⟩ := Function.update_self ..
  have only : ∀ p call, after.calls p = some call → p = pid ∧ call = ⟨true, true, sie⟩ :=
    sleepFor_only idle.1
  have held : Stored after (assembly.push chunk).chunks :=
    stored.congr rfl (fun _ _ => ⟨rfl, rfl, rfl⟩) fun task member => ⟨task, member, rfl⟩
  refine ⟨after, ?_, ?_, held, sum.trans finished, total, asleep⟩
  · simp only [storeChunk, ready.room, ↓reduceIte, Option.bind_eq_bind, Option.bind_some]
    exact if_pos ((sum.trans finished).trans total.symm)
  · have bytes : (assembly.push chunk).chunks.flatten = (assembly.push chunk).bytes := rfl
    refine ⟨?_, ?_, ?_, ?_, ?_, ?_, by simp, fun _ => ?_, keepChunk_bounded ready block.addr,
      ⟨?_, ?_, ?_⟩, ?_, ready.identified⟩
    · intro p q first second
      obtain ⟨call, first⟩ := Option.ne_none_iff_exists'.mp first
      obtain ⟨call', second⟩ := Option.ne_none_iff_exists'.mp second
      exact (only p call first).1.trans (only q call' second).1.symm
    · intro p called
      obtain ⟨call, called⟩ := Option.ne_none_iff_exists'.mp called
      obtain ⟨rfl, rfl⟩ := only p call called
      exact ready.user
    · intro p call called _
      obtain ⟨rfl, rfl⟩ := only p call called
      refine ⟨ready.caller, rfl, rfl, rfl, fun _ => ?_, by simp⟩
      refine ⟨_, held, by simp [bytes], header, ?_, (sum.trans finished).trans total.symm⟩
      exact total.trans finished.symm
    · intro p call called awake
      obtain ⟨rfl, rfl⟩ := only p call called
      cases awake
    · exact fun _ none => absurd (none pid) (by simp [asleep])
    · intro _ p call called
      obtain ⟨rfl, rfl⟩ := only p call called
      rfl
    · exact Int.le_of_eq (total.trans (sum.trans finished).symm)
    · exact ready.tasks fresh chunk _
    · intro _
      simp only [List.length_append, List.length_singleton, ready.done]
      rfl
    · exact fun none => absurd ⟨pid, _, asleep, rfl, rfl⟩ none
    · intro submission member
      rcases List.mem_append.mp member with earlier | new
      · exact ready.known submission earlier
      · cases List.mem_singleton.mp new
        exact ready.user.2

theorem Idle.no_writer (idle : Idle kpu) : ¬ writerAsleep kpu := by
  rintro ⟨p, call, called, _⟩
  rw [idle.1 p] at called
  cases called

theorem user_facts (free : user kpu pid = true) : 2 < pid ∧ findProc kpu.spool pid ≠ none := by
  simp only [user, Bool.and_eq_true, decide_eq_true_eq, Option.isSome_iff_ne_none] at free
  exact free.1

/-- A first chunk finds the device ready for its own submission. -/
theorem Inv.ready_first (inv : Inv traced) (idle : Idle traced.kpu)
    (free : user traced.kpu pid = true) (total : Int) :
    Ready { traced.kpu with
      kpuioInit := true, kpuioCheck := false, numblock := 0, totlength := total, sumlen := 0
      callerPid := pid } (some ⟨pid, total, []⟩) traced.submitted pid where
  idle := idle
  caller := rfl
  user := user_facts free
  own := by
    rintro _ ⟨⟩
    exact ⟨rfl, ⟨rfl, by simp, fun i j first => absurd first (Nat.not_lt_zero i),
      fun i first => absurd first (Nat.not_lt_zero i)⟩, rfl, rfl⟩
  spent none := by cases none
  bounded := ⟨Int.le_refl 0, Int.le_refl 0⟩
  room := Nat.zero_lt_succ _
  served := inv.handled.served
  done := inv.handled.done idle.no_writer
  known := inv.known
  identified := inv.identified

/-- A later chunk of the sender's own finds the submission in progress. -/
theorem Inv.ready_next (inv : Inv traced) (idle : Idle traced.kpu)
    (free : user traced.kpu pid = true) (continues : Continues traced pid) :
    Ready { traced.kpu with kpuioInit := true, kpuioCheck := false } traced.inProgress
      traced.submitted pid where
  idle := idle
  caller := continues.1
  user := user_facts free
  own assembly progress := by
    obtain ⟨stored, total, sum, _, _⟩ := inv.assembling assembly progress
    exact ⟨continues.2.2 assembly progress,
      stored.congr rfl (fun _ _ => ⟨rfl, rfl, rfl⟩) fun task member => ⟨task, member, rfl⟩,
      total, sum⟩
  spent := inv.spent
  bounded := ⟨inv.bounded.1, inv.bounded.2.1⟩
  room := continues.2.1
  served := inv.handled.served
  done := inv.handled.done idle.no_writer
  known := inv.known
  identified := inv.identified

/-- What a write that goes well does: a chunk that completes a submission puts
its sender to sleep with the chunks in the buffers; any other returns. -/
structure Written (pid : Nat) (sie : Bool) (assembly : Option Assembly)
    (after : Kpuio) (outcome : Outcome) : Prop where
  complete : ∀ whole, assembly = some whole → (whole.bytes.length : Int) = whole.total →
    whole.owner = pid ∧ outcome = .sleeping ∧ Stored after whole.chunks ∧
      after.sumlen = whole.total ∧ after.totlength = whole.total ∧
      after.calls pid = some ⟨true, true, sie⟩
  returned : assembly ≠ none → (∃ ret, outcome = .returned ret sie) ∨
    after.calls pid = some ⟨true, true, sie⟩

theorem Ready.write (ready : Ready kpu old submitted pid) (fresh : Fresh kpu mem)
    (header : ∀ whole, old.map (·.push chunk) = some whole →
      (whole.bytes.length : Int) = whole.total → HeaderOk whole.bytes)
    (sie : Bool) (answers : Nat → Result) :
    ∃ after outcome, storeChunk kpu chunk pid sie mem = some (after, outcome) ∧
      Inv ⟨after, (record submitted (old.map (·.push chunk))).1,
        (record submitted (old.map (·.push chunk))).2, answers⟩ ∧
      Written pid sie (old.map (·.push chunk)) after outcome := by
  obtain ⟨block, rfl, fresh⟩ := fresh
  by_cases finishes : ∃ assembly, old = some assembly ∧
      ((assembly.push chunk).bytes.length : Int) = assembly.total
  · obtain ⟨assembly, mine, finished⟩ := finishes
    have mapped : old.map (·.push chunk) = some (assembly.push chunk) := by rw [mine, Option.map_some]
    have owner := (ready.own assembly mine).1
    obtain ⟨after, ran, inv, stored, sum, total, called⟩ := ready.completes fresh mine finished
      (header _ mapped finished) sie answers
    refine ⟨after, .sleeping, ran, ?_, ?_⟩
    · have whole : ((assembly.push chunk).bytes.length : Int) = (assembly.push chunk).total := finished
      rw [mapped, record, if_pos whole]
      exact owner ▸ inv
    · rw [mapped]
      refine ⟨?_, fun _ => .inr called⟩
      rintro _ ⟨⟩ _
      exact ⟨owner, rfl, stored, sum, total, called⟩
  · have unfinished : ∀ assembly, old = some assembly →
        ((assembly.push chunk).bytes.length : Int) ≠ assembly.total :=
      fun assembly mine finished => finishes ⟨assembly, mine, finished⟩
    obtain ⟨ran, inv⟩ := ready.returns fresh unfinished sie answers
    refine ⟨_, _, ran, inv, ?_, ?_⟩
    · intro whole mapped finished
      obtain ⟨assembly, mine, rfl⟩ := Option.map_eq_some_iff.mp mapped
      exact absurd finished (unfinished assembly mine)
    · exact fun _ => .inl ⟨0, rfl⟩

theorem devKpuioTaskinit_negative (first : checkMagic chunk.buffer = true)
    (loaded : loadU64 chunk.buffer totsizeOffset = some total) (negative : toInt total < 0) :
    devKpuioTaskinit kpu chunk pid sie mem =
      some ({ kpu with numblock := 0, totlength := toInt total, sumlen := 0 },
        .returned (-1) false) := by
  simp only [devKpuioTaskinit, first, ↓reduceIte, loaded, negative]

/-- A negative total length leaves a state in which no chunk completes anything. -/
theorem Inv.refuse (inv : Inv traced) (idle : Idle traced.kpu) (negative : total < 0) :
    Inv ⟨{ traced.kpu with
      kpuioInit := true, kpuioCheck := false, numblock := 0, totlength := total, sumlen := 0 },
      none, traced.submitted, traced.answers⟩ :=
  .of_idle idle (by simp) (fun _ => Int.le_of_lt negative)
    ⟨Int.le_refl 0, Int.le_refl 0, Nat.zero_le _⟩ inv.handled.served
    (inv.handled.done idle.no_writer) inv.known inv.identified

theorem devKpuioTaskinit_first (first : checkMagic chunk.buffer = true)
    (loaded : loadU64 chunk.buffer totsizeOffset = some total) (negative : ¬ toInt total < 0) :
    devKpuioTaskinit kpu chunk pid sie mem = storeChunk { kpu with
      numblock := 0, totlength := toInt total, sumlen := 0, callerPid := pid } chunk pid sie mem := by
  simp only [devKpuioTaskinit, first, ↓reduceIte, loaded, negative]

theorem devKpuioTaskinit_next (later : checkMagic chunk.buffer = false)
    (caller : kpu.callerPid = pid) :
    devKpuioTaskinit kpu chunk pid sie mem = storeChunk kpu chunk pid sie mem := by
  simp only [devKpuioTaskinit, later, Bool.false_eq_true, ↓reduceIte]
  exact if_neg (not_not.mpr caller)

/-- A write meets the invariant again wherever the condition holds. -/
theorem Inv.write (inv : Inv traced) (orderly : Orderly traced (.write pid chunk sie mem))
    (free : user traced.kpu pid = true) :
    ∃ after outcome, kpuioWrite traced.kpu chunk pid sie mem = some (after, outcome) ∧
      Inv ⟨after, (record traced.submitted (grown traced.inProgress pid chunk)).1,
        (record traced.submitted (grown traced.inProgress pid chunk)).2, traced.answers⟩ ∧
      Written pid sie (grown traced.inProgress pid chunk) after outcome := by
  obtain ⟨idle, fresh, continues, header⟩ := orderly
  unfold kpuioWrite
  cases first : checkMagic chunk.buffer with
  | false =>
    have ready := inv.ready_next idle free (continues first)
    have same : grown traced.inProgress pid chunk = traced.inProgress.map (·.push chunk) := by
      simp [grown, first]
    rw [same] at header ⊢
    obtain ⟨after, outcome, ran, inv', written⟩ := ready.write fresh header sie traced.answers
    exact ⟨after, outcome, (devKpuioTaskinit_next first ready.caller).trans ran, inv', written⟩
  | true =>
    have fits : totsizeOffset + 8 ≤ chunk.buffer.length := by
      rw [chunk.size, totsizeOffset]
      omega
    obtain ⟨total, loaded⟩ := loadU64_fits fits
    by_cases negative : toInt total < 0
    · have none : grown traced.inProgress pid chunk = none := by
        simp only [grown, first, ↓reduceIte, loaded, negative]
      rw [none]
      refine ⟨_, _, devKpuioTaskinit_negative first loaded negative, ?_, ?_, ?_⟩
      · exact inv.refuse idle negative
      · simp
      · simp
    · have ready := inv.ready_first idle free (toInt total)
      have same : grown traced.inProgress pid chunk =
          (some (Assembly.mk pid (toInt total) [])).map (·.push chunk) := by
        simp only [grown, first, ↓reduceIte, loaded, negative]
        rfl
      rw [same] at header ⊢
      obtain ⟨after, outcome, ran, inv', written⟩ := ready.write fresh header sie traced.answers
      exact ⟨after, outcome, (devKpuioTaskinit_first first loaded negative).trans ran, inv', written⟩

/-! ## Reads, wake-ups and the controller -/

/-- A block that holds no bytes may be written without touching the chunks. -/
theorem Stored.other_block (stored : Stored kpu chunks)
    (other : ∀ buff, kpu.heap addr ≠ some (.bytes buff)) (after : Kpuio)
    (heap : after.heap = Function.update kpu.heap addr content)
    (same : after.numblock = kpu.numblock ∧ after.bufs = kpu.bufs ∧ after.lens = kpu.lens)
    (tasks : after.spool.kpuTasklist = kpu.spool.kpuTasklist) : Stored after chunks := by
  refine stored.congr same.1 ?_ fun task member => ⟨task, tasks ▸ member, rfl⟩
  intro i inside
  rw [same.2.1, same.2.2, heap, Function.update_of_ne (stored.bufs_ne other i inside)]
  exact ⟨rfl, rfl, rfl⟩

theorem TasksServe.other_block (served : TasksServe kpu submitted)
    (other : ∀ buff, kpu.heap addr ≠ some (.bytes buff)) (after : Kpuio)
    (heap : after.heap = Function.update kpu.heap addr content) (spool : after.spool = kpu.spool) :
    TasksServe after submitted := by
  rw [← List.append_nil submitted]
  refine served.keep after ?_ (by rw [spool]) ?_ []
  · intro k task listed
    rw [spool] at listed
    exact ⟨task, listed, rfl, rfl⟩
  · intro task member
    rw [heap, Function.update_of_ne (served.input_ne other task member)]

/-- A read from the idle device leaves its request pending. -/
theorem Inv.read (inv : Inv traced) (idle : Idle traced.kpu) (fresh : Fresh traced.kpu mem)
    (free : user traced.kpu pid = true) (sie : Bool) (junk : Int) :
    Inv { traced with kpu := kpuioRead traced.kpu pid sie mem junk } := by
  obtain ⟨block, rfl, fresh⟩ := fresh
  let after := kpuioRead traced.kpu pid sie (some block) junk
  have asleep : after.calls pid = some ⟨false, true, sie⟩ := Function.update_self ..
  have only : ∀ p call, after.calls p = some call → p = pid ∧ call = ⟨false, true, sie⟩ :=
    sleepFor_only idle.1
  have facts := user_facts free
  have other : ∀ buff, traced.kpu.heap block.addr ≠ some (.bytes buff) := by simp [fresh]
  have served : TasksServe after traced.submitted :=
    inv.handled.served.other_block other after rfl rfl
  have unwritten : ¬ writerAsleep after := by
    rintro ⟨p, call, called, _, write⟩
    obtain ⟨rfl, rfl⟩ := only p call called
    cases write
  refine ⟨?_, ?_, ?_, ?_, ?_, ?_, ?_, inv.spent, inv.bounded, ⟨served, ?_, ?_⟩, inv.known,
    inv.identified⟩
  · intro p q first second
    obtain ⟨call, first⟩ := Option.ne_none_iff_exists'.mp first
    obtain ⟨call', second⟩ := Option.ne_none_iff_exists'.mp second
    exact (only p call first).1.trans (only q call' second).1.symm
  · intro p called
    obtain ⟨call, called⟩ := Option.ne_none_iff_exists'.mp called
    obtain ⟨rfl, rfl⟩ := only p call called
    exact facts
  · intro p call called _
    obtain ⟨rfl, rfl⟩ := only p call called
    exact ⟨rfl, rfl, rfl, rfl, by simp, fun _ => ⟨junk, Function.update_self ..⟩⟩
  · intro p call called awake
    obtain ⟨rfl, rfl⟩ := only p call called
    cases awake
  · exact fun _ none => absurd (none pid) (by simp [after, asleep])
  · intro _ p call called
    obtain ⟨rfl, rfl⟩ := only p call called
    rfl
  · intro assembly progress
    obtain ⟨stored, total, sum, short, owner⟩ := inv.assembling assembly progress
    exact ⟨stored.other_block other after rfl ⟨rfl, rfl, rfl⟩ rfl, total, sum, short, owner⟩
  · exact fun writer => absurd writer unwritten
  · exact fun _ => inv.handled.done idle.no_writer

theorem resume_writer (kind : call.write = true) :
    DevKpuio.resume kpu pid call = some ({ kpu with
      kpuioInit := false, kpuioCheck := false, calls := Function.update kpu.calls pid none },
      .returned 0 call.sie) := by
  simp only [DevKpuio.resume, kind, ↓reduceIte]

theorem resume_reader (kind : call.write = false) (replied : reply kpu = some status) :
    DevKpuio.resume kpu pid call = some ({ kpu with
      kpuioInit := false, kpuioCheck := false, calls := Function.update kpu.calls pid none
      heap := Function.update kpu.heap kpu.kpuresultbase none }, .returned 0 call.sie) := by
  simp only [DevKpuio.resume, kind, Bool.false_eq_true, ↓reduceIte, replied, Option.bind_eq_bind,
    Option.bind_some, Option.pure_def]

/-- A woken process leaves the device idle; a reader takes its own answer along. -/
theorem Inv.resume (inv : Inv traced) (called : traced.kpu.calls pid = some call)
    (woken : call.asleep = false) :
    ∃ after, DevKpuio.resume traced.kpu pid call = some (after, .returned 0 call.sie) ∧
      Inv { traced with kpu := after } ∧
      (call.write = false → reply traced.kpu = some (resultCode (traced.answers pid))) := by
  have resting : traced.kpu.controller = false := by
    cases running : traced.kpu.controller with
    | false => rfl
    | true =>
      have asleep := inv.awake running pid call called
      rw [woken] at asleep
      cases asleep
  have emptied : ∀ p, Function.update traced.kpu.calls pid none p = none := by
    intro p
    by_cases same : p = pid
    · rw [same, Function.update_self]
    · rw [Function.update_of_ne same]
      by_contra inside
      exact same (inv.single p pid inside (by simp [called]))
  have unwritten : ¬ writerAsleep traced.kpu := by
    rintro ⟨p, other, calledOther, asleep, _⟩
    obtain rfl := inv.single p pid (by simp [calledOther]) (by simp [called])
    rw [called, Option.some.injEq] at calledOther
    subst calledOther
    rw [woken] at asleep
    cases asleep
  have done := inv.handled.done unwritten
  cases kind : call.write with
  | true =>
    refine ⟨_, resume_writer kind, ?_, by simp⟩
    refine .of_idle ⟨emptied, resting⟩ ?_ inv.spent inv.bounded inv.handled.served done inv.known
      inv.identified
    intro assembly progress
    obtain ⟨stored, rest⟩ := inv.assembling assembly progress
    exact ⟨stored.congr rfl (fun _ _ => ⟨rfl, rfl, rfl⟩) fun task member => ⟨task, member, rfl⟩, rest⟩
  | false =>
    have answered := inv.answered pid call called woken kind
    have other : ∀ buff, traced.kpu.heap traced.kpu.kpuresultbase ≠ some (.bytes buff) := by
      simp [answered]
    have replied : reply traced.kpu = some (resultCode (traced.answers pid)) := by
      rw [reply, answered]
    refine ⟨_, resume_reader kind replied, ?_, fun _ => replied⟩
    refine .of_idle ⟨emptied, resting⟩ ?_ inv.spent inv.bounded
      (inv.handled.served.other_block other _ rfl rfl) done inv.known inv.identified
    intro assembly progress
    obtain ⟨stored, rest⟩ := inv.assembling assembly progress
    exact ⟨stored.other_block other _ rfl ⟨rfl, rfl, rfl⟩ rfl, rest⟩

/-- Tasks and processes but for the tasks' flags. -/
structure SameTasks (before after : Spool) : Prop where
  length : after.kpuTasklist.length = before.kpuTasklist.length
  procs : after.procs = before.procs
  procPid : after.procPid = before.procPid
  tasks : ∀ (k : Nat) (task : Task), after.kpuTasklist[k]? = some task →
    ∃ old, before.kpuTasklist[k]? = some old ∧ task.input = old.input ∧ task.proc = old.proc

theorem SameTasks.of_eq (tasks : after.kpuTasklist = before.kpuTasklist)
    (procs : after.procs = before.procs) (procPid : after.procPid = before.procPid) :
    SameTasks before after :=
  ⟨congrArg _ tasks, procs, procPid, fun _ task listed => ⟨task, tasks ▸ listed, rfl, rfl⟩⟩

/-- Updating the flags of one task. -/
theorem SameTasks.of_modify {update : Task → Task}
    (tasks : after.kpuTasklist = before.kpuTasklist.modify k update)
    (flags : ∀ task, (update task).input = task.input ∧ (update task).proc = task.proc)
    (procs : after.procs = before.procs) (procPid : after.procPid = before.procPid) :
    SameTasks before after := by
  refine ⟨by rw [tasks, List.length_modify], procs, procPid, ?_⟩
  intro j task listed
  rw [tasks, List.getElem?_modify] at listed
  obtain ⟨old, listedOld, rfl⟩ := Option.map_eq_some_iff.mp listed
  refine ⟨old, listedOld, ?_⟩
  split
  · exact flags old
  · exact ⟨rfl, rfl⟩

/-- A scheduled `run_kpu` thread changes flags only. -/
theorem runKpu_same (spool : Spool) (k : Nat) : SameTasks spool (runKpu spool k) := by
  unfold runKpu
  cases at_k : spool.threads[k]? with
  | none => exact .of_eq rfl rfl rfl
  | some thread =>
    obtain ⟨task, phase⟩ := thread
    cases phase with
    | created =>
      dsimp only
      split
      · exact .of_modify rfl (fun _ => ⟨rfl, rfl⟩) rfl rfl
      · exact .of_eq rfl rfl rfl
    | waiting => exact .of_eq rfl rfl rfl
    | woken => exact .of_modify rfl (fun _ => ⟨rfl, rfl⟩) rfl rfl
    | running => exact .of_modify rfl (fun _ => ⟨rfl, rfl⟩) rfl rfl
    | sleeping =>
      dsimp only
      unfold up
      split <;> exact .of_modify rfl (fun _ => ⟨rfl, rfl⟩) rfl rfl
    | returned => exact .of_eq rfl rfl rfl

theorem SameTasks.findProc (same : SameTasks before after) (pid : Nat) :
    KpuSpooling.findProc after pid = KpuSpooling.findProc before pid := by
  rw [KpuSpooling.findProc, KpuSpooling.findProc, same.procs]

theorem SameTasks.stored (same : SameTasks kpu.spool spool) (stored : Stored kpu chunks) :
    Stored { kpu with spool := spool } chunks := by
  refine stored.congr rfl (fun _ _ => ⟨rfl, rfl, rfl⟩) ?_
  intro task member
  obtain ⟨k, listed⟩ := List.mem_iff_getElem?.mp member
  obtain ⟨old, listedOld, input, _⟩ := same.tasks k task listed
  exact ⟨old, List.mem_of_getElem? listedOld, input.symm⟩

/-- A `run_kpu` thread takes no part in the protocol. -/
theorem Inv.thread (inv : Inv traced) (same : SameTasks traced.kpu.spool spool) :
    Inv { traced with kpu := { traced.kpu with spool := spool } } := by
  have served : TasksServe { traced.kpu with spool := spool } (traced.submitted ++ []) :=
    inv.handled.served.keep { traced.kpu with spool := spool } same.tasks same.procs
      (fun _ _ => rfl) []
  rw [List.append_nil] at served
  refine ⟨inv.single, ?_, ?_, inv.answered, inv.quiet, inv.awake, ?_, inv.spent, inv.bounded,
    ⟨served, ?_, ?_⟩, ?_, ?_⟩
  · intro p called
    rw [same.findProc]
    exact inv.inside p called
  · intro p call called asleep
    have pending := inv.pending p call called asleep
    refine ⟨pending.caller, pending.served, pending.init, pending.check, ?_, pending.result⟩
    intro write
    obtain ⟨chunks, stored, rest⟩ := pending.buffer write
    exact ⟨chunks, same.stored stored, rest⟩
  · intro assembly progress
    obtain ⟨stored, total, sum, short, owner⟩ := inv.assembling assembly progress
    refine ⟨same.stored stored, total, sum, short, ?_⟩
    rw [same.findProc]
    exact owner
  · intro writer
    rw [same.length]
    exact inv.handled.waiting writer
  · intro unwritten
    rw [same.length]
    exact inv.handled.done unwritten
  · intro submission member
    rw [same.findProc]
    exact inv.known submission member
  · intro p addr found
    rw [same.findProc] at found
    rw [same.procPid]
    exact inv.identified p addr found

/-- `try_run_task` starts threads only. -/
theorem tryRunTask_same (owned : ∀ task ∈ spool.kpuTasklist, task.proc ≠ none) (id : Nat)
    (created : Bool) : ∃ after, tryRunTask spool id created = some after ∧
      after.kpuTasklist = spool.kpuTasklist ∧ after.procs = spool.procs ∧
      after.procPid = spool.procPid := by
  unfold tryRunTask
  cases found : spool.kpuTasklist.findIdx? fun task => decide (task.id = id) with
  | none => exact ⟨spool, rfl, rfl, rfl, rfl⟩
  | some k =>
    obtain ⟨inside, _⟩ := List.findIdx?_eq_some_iff_getElem.mp found
    obtain ⟨proc, owner⟩ := Option.ne_none_iff_exists'.mp
      (owned spool.kpuTasklist[k] (List.getElem_mem inside))
    refine ⟨addRuntestThread spool k created, ?_, ?_⟩
    · simp [List.getElem?_eq_getElem inside, owner]
    · cases created <;> exact ⟨rfl, rfl, rfl⟩

/-- The controller's answer is the state of the asker's own first task. -/
theorem checkTasks_own {tasks : List (Task × Submission)} {procPid : Nat → Nat}
    (owned : ∀ pair ∈ tasks, ∃ addr, pair.1.proc = some addr ∧ procPid addr = pair.2.owner)
    (pid : Nat) :
    checkTasks procPid pid (tasks.map Prod.fst) = some (ownStatus pid tasks) := by
  induction tasks with
  | nil => rfl
  | cons pair rest ih =>
    obtain ⟨addr, proc, owner⟩ := owned pair (by simp)
    have later := ih fun other member => owned other (List.mem_cons_of_mem _ member)
    simp only [List.map_cons, checkTasks, proc, Option.bind_eq_bind, Option.bind_some, owner,
      ownStatus, later]
    by_cases mine : pair.2.owner = pid
    · simp only [mine, ↓reduceIte, taskStatus, beq_self_eq_true, Bool.and_true]
      cases isRunning pair.1 <;> cases isSuccess pair.1 <;> simp
    · have other : (pid == pair.2.owner) = false := by simpa using Ne.symm mine
      simp [mine, other]

theorem wakeup_caller (called : kpu.calls pid = some call) (live : findProc kpu.spool pid ≠ none) :
    wakeup kpu pid = some { kpu with
      calls := Function.update kpu.calls pid (some { call with asleep := false }) } := by
  obtain ⟨addr, found⟩ := Option.ne_none_iff_exists'.mp live
  simp [wakeup, found, called]

/-- With one process inside, waking it leaves one woken process inside. -/
theorem woken_only (single : ∀ p q, kpu.calls p ≠ none → kpu.calls q ≠ none → p = q)
    (called : kpu.calls pid = some call) :
    ∀ p other, Function.update kpu.calls pid (some { call with asleep := false }) p = some other →
      p = pid ∧ other = { call with asleep := false } := by
  intro p other at_p
  by_cases same : p = pid
  · subst same
    rw [Function.update_self, Option.some.injEq] at at_p
    exact ⟨rfl, at_p.symm⟩
  · rw [Function.update_of_ne same] at at_p
    exact absurd (single p pid (by simp [at_p]) (by simp [called])) same

/-- The state after the controller has served the only process inside. -/
theorem Inv.of_woken {before after : Traced} (inv : Inv before)
    (called : before.kpu.calls pid = some call)
    (calls : after.kpu.calls =
      Function.update before.kpu.calls pid (some { call with asleep := false }))
    (resting : after.kpu.controller = false) (procs : after.kpu.spool.procs = before.kpu.spool.procs)
    (procPid : after.kpu.spool.procPid = before.kpu.spool.procPid)
    (submitted : after.submitted = before.submitted)
    (answered : call.write = false → after.kpu.heap after.kpu.kpuresultbase =
      some (.result (resultCode (after.answers pid))))
    (assembling : ∀ assembly, after.inProgress = some assembly →
      Stored after.kpu assembly.chunks ∧ after.kpu.totlength = assembly.total ∧
        after.kpu.sumlen = assembly.bytes.length ∧ after.kpu.sumlen < assembly.total ∧
        findProc after.kpu.spool assembly.owner ≠ none)
    (spent : after.inProgress = none → after.kpu.totlength ≤ after.kpu.sumlen)
    (bounded : 0 ≤ after.kpu.sumlen ∧ after.kpu.sumlen ≤ 4096 * after.kpu.numblock ∧
      after.kpu.numblock ≤ 64)
    (served : TasksServe after.kpu after.submitted)
    (done : after.submitted.length = after.kpu.spool.kpuTasklist.length) : Inv after := by
  have find : ∀ p, findProc after.kpu.spool p = findProc before.kpu.spool p := fun p => by
    rw [findProc, findProc, procs]
  have only := woken_only inv.single called
  rw [← calls] at only
  refine ⟨?_, ?_, ?_, ?_, ?_, ?_, assembling, spent, bounded, ⟨served, ?_, fun _ => done⟩, ?_, ?_⟩
  · intro p q first second
    obtain ⟨a, first⟩ := Option.ne_none_iff_exists'.mp first
    obtain ⟨b, second⟩ := Option.ne_none_iff_exists'.mp second
    exact (only p a first).1.trans (only q b second).1.symm
  · intro p inside
    obtain ⟨other, at_p⟩ := Option.ne_none_iff_exists'.mp inside
    rw [(only p other at_p).1, find]
    exact inv.inside pid (by simp [called])
  · intro p other at_p asleep
    obtain ⟨_, rfl⟩ := only p other at_p
    cases asleep
  · intro p other at_p _ reads
    obtain ⟨rfl, rfl⟩ := only p other at_p
    exact answered reads
  · exact fun running => absurd (resting.symm.trans running) (by simp)
  · exact fun running => absurd (resting.symm.trans running) (by simp)
  · rintro ⟨p, other, at_p, asleep, _⟩
    obtain ⟨_, rfl⟩ := only p other at_p
    cases asleep
  · intro submission member
    rw [find]
    exact inv.known submission (submitted ▸ member)
  · intro p addr found
    rw [find] at found
    rw [procPid]
    exact inv.identified p addr found

theorem kpuTaskCtrl_add {added : Kpuio} {taskid : Nat} (init : kpu.kpuioInit = true) (check : kpu.kpuioCheck = false)
    (caller : kpu.callerPid = pid) (user : 2 < pid)
    (made : addKpuTask { kpu with controller := false } pid mem taskMem =
      some (added, taskid))
    (ran : tryRunTask added.spool taskid created = some spool) :
    kpuTaskCtrl kpu mem taskMem created = wakeup { added with spool := spool } pid := by
  subst caller
  have adding : (kpu.kpuioInit && !kpu.kpuioCheck) = true := by
    rw [init, check]
    rfl
  simp only [kpuTaskCtrl, adding, ↓reduceIte, user, made, Option.bind_eq_bind, Option.bind_some,
    ran]

/-- One more task with its submission. -/
theorem TasksServe.push {after : Kpuio} (served : TasksServe kpu submitted)
    (tasks : after.spool.kpuTasklist = kpu.spool.kpuTasklist ++ [task])
    (procs : after.spool.procs = kpu.spool.procs)
    (heap : ∀ task ∈ kpu.spool.kpuTasklist, after.heap task.input = kpu.heap task.input)
    (last : submitted[kpu.spool.kpuTasklist.length]? = some submission)
    (new : Serves after task submission) : TasksServe after submitted := by
  intro k other listed
  rw [tasks] at listed
  by_cases inside : k < kpu.spool.kpuTasklist.length
  · rw [List.getElem?_append_left inside] at listed
    obtain ⟨own, at_k, owner, buff, live, pointed⟩ := served k other listed
    refine ⟨own, at_k, ?_, buff, ?_, pointed⟩
    · rw [owner, findProc, findProc, procs]
    · rw [heap other (List.mem_of_getElem? listed), live]
  · have bound := (List.getElem?_eq_some_iff.mp listed).1
    obtain rfl : k = kpu.spool.kpuTasklist.length := by
      simp only [List.length_append, List.length_singleton] at bound
      omega
    rw [List.getElem?_concat_length, Option.some.injEq] at listed
    exact ⟨submission, last, listed ▸ new⟩

/-- The controller makes the task of a writer that sleeps. -/
theorem Inv.serve_writer (inv : Inv traced) (called : traced.kpu.calls pid = some call)
    (asleep : call.asleep = true) (write : call.write = true)
    (fresh : traced.kpu.heap block.addr = none) (junk : BitVec 32) (created : Bool)
    (answers : Nat → Result) :
    ∃ after task submission, kpuTaskCtrl traced.kpu (some block) (some junk) created = some after ∧
      Inv { traced with kpu := after, answers := answers } ∧
      after.spool.kpuTasklist = traced.kpu.spool.kpuTasklist ++ [task] ∧
      traced.submitted.getLast? = some submission ∧ Serves after task submission ∧
      ∀ i < traced.kpu.numblock, traced.kpu.heap (traced.kpu.bufs i) ≠ none ∧
        after.heap (traced.kpu.bufs i) = none := by
  have pending := inv.pending pid call called asleep
  obtain ⟨chunks, stored, last, header, total, sum⟩ := pending.buffer write
  obtain ⟨user, live⟩ := inv.inside pid (by simp [called])
  have init : traced.kpu.kpuioInit = true := pending.init.trans write
  have check : traced.kpu.kpuioCheck = false := by rw [pending.check, write]; rfl
  let rest := { traced.kpu with controller := false }
  have resting : Stored rest chunks :=
    stored.congr rfl (fun _ _ => ⟨rfl, rfl, rfl⟩) fun task member => ⟨task, member, rfl⟩
  obtain ⟨heap, lens, buff, made, held, pointed, freed, kept⟩ :=
    resting.added header total fresh pid junk
  let enlisted := enlistTask traced.kpu.spool pid block.addr junk
  let task := taskInit ⟨junk, enlisted.2, block.addr, findProc traced.kpu.spool pid⟩
  have owned : ∀ task ∈ enlisted.1.kpuTasklist, task.proc ≠ none := by
    intro other member
    rcases List.mem_append.mp member with old | new
    · exact inv.owned other old
    · cases List.mem_singleton.mp new
      exact live
  obtain ⟨spool, ran, tasks, procs, procPid⟩ := tryRunTask_same owned enlisted.2 created
  let calls := Function.update traced.kpu.calls pid (some { call with asleep := false })
  let after := { rest with heap := heap, lens := lens, spool := spool, calls := calls }
  have live' : findProc spool pid ≠ none := by
    rw [findProc, procs]
    exact live
  have serves : Serves after task ⟨pid, chunks.flatten⟩ := by
    refine ⟨?_, buff, held, pointed⟩
    simp only [after, task, taskInit, findProc, procs]
    rfl
  have unmoved : ∀ task ∈ traced.kpu.spool.kpuTasklist,
      after.heap task.input = traced.kpu.heap task.input := by
    intro other member
    refine kept _ (inv.handled.served.input_ne (by simp [fresh]) other member) ?_
    intro i inside
    exact (stored.unshared i inside other member).symm
  have length := inv.handled.waiting ⟨pid, call, called, asleep, write⟩
  have at_last : traced.submitted[traced.kpu.spool.kpuTasklist.length]? =
      some ⟨pid, chunks.flatten⟩ := by
    rw [List.getLast?_eq_getElem?, length, Nat.add_sub_cancel] at last
    exact last
  have whole : traced.inProgress = none := by
    cases progress : traced.inProgress with
    | none => rfl
    | some assembly =>
      obtain ⟨_, same, _, short, _⟩ := inv.assembling assembly progress
      omega
  refine ⟨after, task, ⟨pid, chunks.flatten⟩, ?_, ?_, tasks, last, serves, ?_⟩
  · rw [kpuTaskCtrl_add init check pending.caller user made ran]
    exact wakeup_caller called live'
  · refine inv.of_woken called rfl rfl procs procPid rfl (by simp [write]) ?_ inv.spent inv.bounded
      (inv.handled.served.push tasks procs unmoved at_last serves) ?_
    · intro assembly progress
      rw [whole] at progress
      cases progress
    · simp only [length, after, tasks, enlisted, enlistTask, List.length_append,
        List.length_singleton]
  · intro i inside
    obtain ⟨chunk, _, full, _⟩ := stored.live inside
    exact ⟨by simp [full], freed i inside⟩

theorem kpuTaskCtrl_check (init : kpu.kpuioInit = false) (check : kpu.kpuioCheck = true)
    (caller : kpu.callerPid = pid) (status : tryCheckResult kpu.spool pid = some answer)
    (waits : reply kpu = some code) :
    kpuTaskCtrl kpu mem taskMem created = wakeup { kpu with
      controller := false
      heap := Function.update kpu.heap kpu.kpuresultbase (some (.result (resultCode answer))) }
      pid := by
  subst caller
  have adding : (kpu.kpuioInit && !kpu.kpuioCheck) = false := by
    rw [init]
    rfl
  have checking : (kpu.kpuioCheck && !kpu.kpuioInit) = true := by
    rw [init, check]
    rfl
  simp only [kpuTaskCtrl, adding, Bool.false_eq_true, ↓reduceIte, checking, status, waits,
    Option.bind_eq_bind, Option.bind_some]

/-- The controller answers a reader that sleeps about its own tasks. -/
theorem Inv.serve_reader (inv : Inv traced) (called : traced.kpu.calls pid = some call)
    (asleep : call.asleep = true) (read : call.write = false) (mem : Option Grant)
    (taskMem : Option (BitVec 32)) (created : Bool) (answers : Nat → Result)
    (own : answers pid = ownStatus pid (traced.kpu.spool.kpuTasklist.zip traced.submitted)) :
    ∃ after, kpuTaskCtrl traced.kpu mem taskMem created = some after ∧
      Inv { traced with kpu := after, answers := answers } := by
  have pending := inv.pending pid call called asleep
  obtain ⟨code, result⟩ := pending.result read
  obtain ⟨_, live⟩ := inv.inside pid (by simp [called])
  have unwritten : ¬ writerAsleep traced.kpu := by
    rintro ⟨p, other, at_p, _, write⟩
    obtain rfl := inv.single p pid (by simp [at_p]) (by simp [called])
    rw [called, Option.some.injEq] at at_p
    subst at_p
    rw [read] at write
    cases write
  have done := inv.handled.done unwritten
  have status : tryCheckResult traced.kpu.spool pid = some (answers pid) := by
    have owned : ∀ pair ∈ traced.kpu.spool.kpuTasklist.zip traced.submitted,
        ∃ addr, pair.1.proc = some addr ∧ traced.kpu.spool.procPid addr = pair.2.owner := by
      intro pair member
      obtain ⟨k, at_k⟩ := List.mem_iff_getElem?.mp member
      obtain ⟨listed, sent⟩ := List.getElem?_zip_eq_some.mp at_k
      obtain ⟨submission, at_k, proc, _⟩ := inv.handled.served k pair.1 listed
      rw [sent, Option.some.injEq] at at_k
      subst at_k
      obtain ⟨addr, found⟩ := Option.ne_none_iff_exists'.mp
        (inv.known pair.2 (List.mem_of_getElem? sent))
      exact ⟨addr, proc.trans found, inv.identified _ _ found⟩
    have answered := checkTasks_own owned pid
    rw [List.map_fst_zip (by omega)] at answered
    rw [tryCheckResult, answered, own]
  have other : ∀ buff, traced.kpu.heap traced.kpu.kpuresultbase ≠ some (.bytes buff) := by
    simp [result]
  have waits : reply traced.kpu = some code := by
    unfold reply
    rw [result]
  refine ⟨_, (kpuTaskCtrl_check (pending.init.trans read) (by rw [pending.check, read]; rfl)
    pending.caller status waits).trans (wakeup_caller called live), ?_⟩
  refine inv.of_woken called rfl rfl rfl rfl rfl (fun _ => Function.update_self ..) ?_ inv.spent
    inv.bounded (inv.handled.served.other_block other _ rfl rfl) done
  intro assembly progress
  obtain ⟨stored, rest⟩ := inv.assembling assembly progress
  exact ⟨stored.other_block other _ rfl ⟨rfl, rfl, rfl⟩ rfl, rest⟩

/-- With nobody inside the controller goes to sleep. -/
theorem Inv.serve_nobody (inv : Inv traced) (nobody : ∀ pid, traced.kpu.calls pid = none)
    (running : traced.kpu.controller = true) (mem : Option Grant) (taskMem : Option (BitVec 32))
    (created : Bool) (answers : Nat → Result) :
    ∃ after, kpuTaskCtrl traced.kpu mem taskMem created = some after ∧
      Inv { traced with kpu := after, answers := answers } := by
  obtain ⟨init, check⟩ := inv.quiet running nobody
  have unwritten : ¬ writerAsleep traced.kpu := by
    rintro ⟨p, call, called, _⟩
    exact absurd ((nobody p).symm.trans called) (by simp)
  refine ⟨{ traced.kpu with controller := false }, ?_, ?_⟩
  · have adding : (traced.kpu.kpuioInit && !traced.kpu.kpuioCheck) = false := by
      rw [init]
      rfl
    have checking : (traced.kpu.kpuioCheck && !traced.kpu.kpuioInit) = false := by
      rw [check]
      rfl
    simp only [kpuTaskCtrl, adding, Bool.false_eq_true, ↓reduceIte, checking]
    rfl
  · refine .of_idle ⟨nobody, rfl⟩ ?_ inv.spent inv.bounded inv.handled.served
      (inv.handled.done unwritten) inv.known inv.identified
    intro assembly progress
    obtain ⟨stored, rest⟩ := inv.assembling assembly progress
    exact ⟨stored.congr rfl (fun _ _ => ⟨rfl, rfl, rfl⟩) fun task member => ⟨task, member, rfl⟩, rest⟩

/-! ## Runs -/

theorem Inv.served (inv : Inv after)
    (replied : ∀ pid call, event = .resume pid → before.kpu.calls pid = some call →
      call.asleep = false → call.write = false →
      reply before.kpu = some (resultCode (before.answers pid))) : Served before event after :=
  ⟨inv.pending, inv.handled, replied⟩

/-- Every controller turn keeps the invariant. -/
theorem Inv.controller (inv : Inv traced) (running : traced.kpu.controller = true)
    (fresh : Fresh traced.kpu mem) (memory : taskMem ≠ none) (created : Bool) :
    ∃ after, step traced (.controller mem taskMem created) = some after ∧ Inv after ∧
      (writerAsleep traced.kpu → ∃ task submission,
        after.kpu.spool.kpuTasklist = traced.kpu.spool.kpuTasklist ++ [task] ∧
        traced.submitted.getLast? = some submission ∧ Serves after.kpu task submission ∧
        ∀ i < traced.kpu.numblock, traced.kpu.heap (traced.kpu.bufs i) ≠ none ∧
          after.kpu.heap (traced.kpu.bufs i) = none) := by
  obtain ⟨block, rfl, fresh⟩ := fresh
  obtain ⟨junk, rfl⟩ := Option.ne_none_iff_exists'.mp memory
  simp only [step, running, ↓reduceIte]
  by_cases nobody : ∀ pid, traced.kpu.calls pid = none
  · obtain ⟨after, ran, inv'⟩ := inv.serve_nobody nobody running (some block) (some junk) created
      fun pid => if sleepingReader traced.kpu pid then
        ownStatus pid (traced.kpu.spool.kpuTasklist.zip traced.submitted) else traced.answers pid
    refine ⟨_, by rw [ran, Option.map_some], inv', ?_⟩
    rintro ⟨p, call, called, _⟩
    exact absurd ((nobody p).symm.trans called) (by simp)
  · obtain ⟨pid, inside⟩ := not_forall.mp nobody
    obtain ⟨call, called⟩ := Option.ne_none_iff_exists'.mp inside
    have asleep := inv.awake running pid call called
    cases kind : call.write with
    | true =>
      obtain ⟨after, task, submission, ran, inv', made⟩ :=
        inv.serve_writer called asleep kind fresh junk created
          fun pid => if sleepingReader traced.kpu pid then
            ownStatus pid (traced.kpu.spool.kpuTasklist.zip traced.submitted) else traced.answers pid
      exact ⟨_, by rw [ran, Option.map_some], inv', fun _ => ⟨task, submission, made⟩⟩
    | false =>
      have reads : sleepingReader traced.kpu pid = true := by
        simp [sleepingReader, called, asleep, kind]
      obtain ⟨after, ran, inv'⟩ := inv.serve_reader called asleep kind (some block) (some junk) created
        (fun pid => if sleepingReader traced.kpu pid then
          ownStatus pid (traced.kpu.spool.kpuTasklist.zip traced.submitted) else traced.answers pid)
        (if_pos reads)
      refine ⟨_, by rw [ran, Option.map_some], inv', ?_⟩
      rintro ⟨p, other, at_p, _, write⟩
      obtain rfl := inv.single p pid (by simp [at_p]) inside
      rw [called, Option.some.injEq] at at_p
      subst at_p
      rw [kind] at write
      cases write

/-- One step of an orderly run. -/
theorem step_served (traced : Traced) (event : Event) (inv : Inv traced)
    (orderly : Orderly traced event) :
    ∃ after, step traced event = some after ∧ Served traced event after ∧ Inv after := by
  cases event with
  | write pid chunk sie mem =>
    cases free : user traced.kpu pid with
    | false => exact ⟨traced, by simp [step, free], inv.served (by simp), inv⟩
    | true =>
      obtain ⟨after, outcome, ran, inv', _⟩ := inv.write orderly free
      exact ⟨_, by simp [step, free, ran], inv'.served (by simp), inv'⟩
  | read pid sie mem junk =>
    cases free : user traced.kpu pid with
    | false => exact ⟨traced, by simp [step, free], inv.served (by simp), inv⟩
    | true =>
      have inv' := inv.read orderly.1 orderly.2 free sie junk
      exact ⟨_, by simp [step, free], inv'.served (by simp), inv'⟩
  | resume pid =>
    cases called : traced.kpu.calls pid with
    | none =>
      refine ⟨traced, by simp [step, called], inv.served ?_, inv⟩
      rintro _ call ⟨⟩ inside
      rw [called] at inside
      cases inside
    | some call =>
      cases asleep : call.asleep with
      | true =>
        refine ⟨traced, by simp [step, called, asleep], inv.served ?_, inv⟩
        rintro _ other ⟨⟩ inside awake
        rw [called, Option.some.injEq] at inside
        subst inside
        rw [asleep] at awake
        cases awake
      | false =>
        obtain ⟨after, ran, inv', replied⟩ := inv.resume called asleep
        refine ⟨_, by simp [step, called, asleep, ran], inv'.served ?_, inv'⟩
        rintro _ other ⟨⟩ inside _ reads
        rw [called, Option.some.injEq] at inside
        subst inside
        exact replied reads
  | controller mem taskMem created =>
    cases running : traced.kpu.controller with
    | false => exact ⟨traced, by simp [step, running], inv.served (by simp), inv⟩
    | true =>
      obtain ⟨after, ran, inv', _⟩ := inv.controller running orderly.1 orderly.2 created
      exact ⟨after, ran, inv'.served (by simp), inv'⟩
  | thread k =>
    have inv' := inv.thread (runKpu_same traced.kpu.spool k)
    exact ⟨_, rfl, inv'.served (by simp), inv'⟩

/-- **No lost or misrouted request.** With every device call made while the
device is idle, in every interleaving a sleeper's own request is pending and
the controller will serve it, each complete submission gives one task with its
bytes and its owner, and a reader gets the answer about its own tasks. -/
theorem requests_served (held : ∀ proc ∈ procs, procPid proc.addr = proc.pid)
    (along : Along step Orderly (boot procs procPid) events) :
    Safe step Served (boot procs procPid) events :=
  safe_of_invariant step_served (boot_inv held) along

/-- A whole submission in one chunk: a header with `totsize` 48 and `jpgsize` 1. -/
def sampleHeader : List UInt8 :=
  magic ++ List.replicate 8 0 ++ (48 :: List.replicate 7 0) ++ (1 :: List.replicate 7 0) ++
    List.replicate 16 0

def sample : Chunk where
  buffer := sampleHeader ++ List.replicate 4048 0
  len := 48
  size := by rw [List.length_append, List.length_replicate]; rfl
  positive := by decide
  within := by decide

private theorem sample_first : checkMagic sample.buffer = true := by
  have start : sample.buffer.take 8 = sampleHeader.take 8 := by
    rw [sample, List.take_append_of_le_length (by decide)]
  rw [checkMagic, start]
  decide

private theorem sample_data : sample.data = sampleHeader := by
  rw [Chunk.data, sample, List.take_append_of_le_length (by decide)]
  rfl

private theorem sample_total : loadU64 sample.buffer totsizeOffset = some 48 := by
  have header : loadU64 sampleHeader totsizeOffset = some 48 := by decide
  exact loadU64_append header _

private theorem sample_header : HeaderOk sampleHeader :=
  ⟨by decide, by decide, 1, by decide, by decide⟩

private theorem sample_grown (inProgress : Option Assembly) (pid : Nat) :
    grown inProgress pid sample = some (Assembly.push ⟨pid, 48, []⟩ sample) := by
  have small : toInt ((48 : Nat) : Int) = 48 := by decide
  simp only [grown, sample_first, ↓reduceIte, sample_total, small]
  rfl

def memoryAt (addr : Nat) : Option Grant := some ⟨addr, fun _ => 0⟩

/-- Once the process inside is out, nobody is inside. -/
theorem Inv.resumed (inv : Inv traced) (called : traced.kpu.calls pid = some call) (awake : call.asleep = false)
    (ran : step traced (.resume pid) = some after) : ∀ p, after.kpu.calls p = none := by
  simp only [step, called, awake, Bool.false_eq_true, ↓reduceIte] at ran
  obtain ⟨⟨kpu, outcome⟩, resumed, rfl⟩ := Option.map_eq_some_iff.mp ran
  have calls : kpu.calls = Function.update traced.kpu.calls pid none := by
    cases kind : call.write with
    | true =>
      rw [resume_writer kind] at resumed
      cases resumed
      rfl
    | false =>
      simp only [DevKpuio.resume, kind, Bool.false_eq_true, ↓reduceIte] at resumed
      obtain ⟨status, -, same⟩ := Option.bind_eq_some_iff.mp resumed
      cases same
      rfl
  intro p
  change kpu.calls p = none
  rw [calls]
  by_cases other : p = pid
  · rw [other, Function.update_self]
  · rw [Function.update_of_ne other]
    by_contra inside
    exact other (inv.single p pid inside (by simp [called]))

theorem Inv.of_run (inv : Inv traced) (along : Along step Orderly traced events) (ran : run step traced events = some after) :
    Inv after := by
  refine run_keeps (fun traced event after inv orderly stepped => ?_) inv along ran
  obtain ⟨after', stepped', -, inv'⟩ := step_served traced event inv orderly
  cases stepped'.symm.trans stepped
  exact inv'

/-- One process submits its task, is woken when the controller has made it, and asks for the answer. -/
def oneWriter : List Event :=
  [.controller (memoryAt 5000) (some 0) true, .write 3 sample false (memoryAt 6000),
    .controller (memoryAt 7000) (some 0) true, .resume 3, .read 3 false (memoryAt 8000) 0,
    .controller (memoryAt 9000) (some 0) true, .resume 3]

def writerBoot : Traced := boot [⟨3, 1000⟩] fun _ => 3

private theorem free_at {traced : Traced} {addr count : Nat}
    (free : (run step writerBoot (oneWriter.take count)).map (fun traced => (traced.kpu.heap addr).isNone) = some true)
    (reached : run step writerBoot (oneWriter.take count) = some traced) : Fresh traced.kpu (memoryAt addr) := by
  rw [reached] at free
  exact ⟨_, rfl, Option.isNone_iff_eq_none.mp (Option.some.inj free)⟩

private theorem oneWriter_orderly : Along step Orderly writerBoot oneWriter := by
  have inv : Inv writerBoot := boot_inv (by simp)
  have start : Fresh writerBoot.kpu (memoryAt 5000) := ⟨_, rfl, rfl⟩
  refine ⟨⟨start, Option.some_ne_none _⟩, fun s1 ran1 => ?_⟩
  have written : Orderly s1 (.write 3 sample false (memoryAt 6000)) := by
    cases ran1
    refine ⟨⟨fun _ => rfl, rfl⟩, ⟨_, rfl, rfl⟩, fun later => ?_, fun assembly own _ => ?_⟩
    · rw [sample_first] at later
      cases later
    · rw [sample_grown] at own
      cases own
      rw [push_bytes, sample_data]
      exact sample_header
  refine ⟨written, fun s2 ran2 => ?_⟩
  have reached2 : run step writerBoot (oneWriter.take 2) = some s2 := by
    simp only [oneWriter, List.take, run, ran1, ran2, Option.bind_some]
  have made : Orderly s2 (.controller (memoryAt 7000) (some 0) true) := ⟨free_at (by decide +kernel) reached2, Option.some_ne_none _⟩
  refine ⟨made, fun s3 ran3 => ⟨trivial, fun s4 ran4 => ?_⟩⟩
  have reached3 : run step writerBoot (oneWriter.take 3) = some s3 := by
    simp only [oneWriter, List.take, run, ran1, ran2, ran3, Option.bind_some]
  have reached4 : run step writerBoot (oneWriter.take 4) = some s4 := by
    simp only [oneWriter, List.take, run, ran1, ran2, ran3, ran4, Option.bind_some]
  have woken : (run step writerBoot (oneWriter.take 3)).map (fun traced => (traced.kpu.calls 3).map (·.asleep)) = some (some false) := by
    decide +kernel
  have asleep : (run step writerBoot (oneWriter.take 4)).map (fun traced => traced.kpu.controller) = some false := by
    decide +kernel
  rw [reached3] at woken
  rw [reached4] at asleep
  obtain ⟨call, called, awake⟩ := Option.map_eq_some_iff.mp (Option.some.inj woken)
  have inv3 : Inv s3 := by
    have along : Along step Orderly writerBoot (oneWriter.take 3) :=
      ⟨⟨start, Option.some_ne_none _⟩, fun after1 first => by
        cases first.symm.trans ran1
        exact ⟨written, fun after2 second => by
          cases second.symm.trans ran2
          exact ⟨made, fun _ _ => trivial⟩⟩⟩
    exact inv.of_run along reached3
  have idle : Idle s4.kpu := ⟨inv3.resumed called awake ran4, Option.some.inj asleep⟩
  refine ⟨⟨idle, free_at (by decide +kernel) reached4⟩, fun s5 ran5 => ⟨⟨?_, Option.some_ne_none _⟩, fun _ _ => ⟨trivial, fun _ _ => trivial⟩⟩⟩
  have reached5 : run step writerBoot (oneWriter.take 5) = some s5 := by
    simp only [oneWriter, List.take, run, ran1, ran2, ran3, ran4, ran5, Option.bind_some]
  exact free_at (by decide +kernel) reached5

/-- The task is made, and the process is outside the device again. -/
theorem one_writer_served : Safe step Served writerBoot oneWriter ∧
    (run step writerBoot oneWriter).map (fun traced => (traced.kpu.spool.kpuTasklist.length, (traced.kpu.calls 3).isNone)) =
      some (1, true) :=
  ⟨requests_served (by simp) oneWriter_orderly, by decide +kernel⟩

/-- Two processes submit before the controller runs. -/
def twoWriters : List Event :=
  [.controller (memoryAt 5000) (some 0) true, .write 3 sample false (memoryAt 6000),
    .write 4 sample false (memoryAt 7000)]

/-- The sample is complete with its one chunk, whoever slept before. -/
private theorem sample_write (kpu : Kpuio) (pid : Nat) (addr : Nat) :
    ∃ after, kpuioWrite kpu sample pid false (memoryAt addr) = some (after, .sleeping) ∧
      after.callerPid = pid ∧
      after.calls = Function.update kpu.calls pid (some ⟨true, true, false⟩) ∧
      after.spool = kpu.spool := by
  have total : toInt ((48 : Nat) : Int) = 48 := by decide
  have sum : toInt (0 + (48 : Nat) : Int) = 48 := by decide
  have length : sample.len = 48 := rfl
  rw [kpuioWrite, devKpuioTaskinit_first sample_first sample_total (by rw [total]; decide), total]
  simp only [storeChunk, memoryAt, Nat.zero_lt_succ, ↓reduceIte, Option.bind_eq_bind,
    Option.bind_some, keepChunk, length, sum]
  exact ⟨_, rfl, rfl, rfl, rfl⟩

private theorem sample_recorded (submitted : List Submission) (pid : Nat) :
    record submitted (grown none pid sample) =
      (none, submitted ++ [⟨pid, sampleHeader⟩]) := by
  have whole : (Assembly.push ⟨pid, 48, []⟩ sample).bytes = sampleHeader := by
    rw [push_bytes, sample_data]
    rfl
  have length : (sampleHeader.length : Int) = 48 := by decide
  rw [sample_grown, record, whole]
  exact if_pos length

private theorem sample_step (traced : Traced) (pid addr : Nat) (free : user traced.kpu pid = true)
    (idle : traced.inProgress = none) :
    ∃ after, step traced (.write pid sample false (memoryAt addr)) = some after ∧
      after.kpu.callerPid = pid ∧
      after.kpu.calls = Function.update traced.kpu.calls pid (some ⟨true, true, false⟩) ∧
      after.kpu.spool = traced.kpu.spool ∧ after.inProgress = none := by
  obtain ⟨after, ran, caller, calls, spool⟩ := sample_write traced.kpu pid addr
  refine ⟨⟨after, none, traced.submitted ++ [⟨pid, sampleHeader⟩], traced.answers⟩, ?_, caller,
    calls, spool, rfl⟩
  simp only [step, free, ↓reduceIte, ran, Option.map_some, idle, sample_recorded]

/-- The second submission takes the request of the first away, whose process
sleeps on. -/
theorem two_writers_lose_a_request :
    ∃ final call, run step (boot [⟨3, 1000⟩, ⟨4, 2000⟩] fun _ => 3) twoWriters = some final ∧
      final.kpu.calls 3 = some call ∧ call.asleep = true ∧ ¬ Pending final 3 call := by
  obtain ⟨idle, begun, calls, spool, empty⟩ : ∃ idle,
      step (boot [⟨3, 1000⟩, ⟨4, 2000⟩] fun _ => 3) (.controller (memoryAt 5000) (some 0) true) =
        some idle ∧ (∀ pid, idle.kpu.calls pid = none) ∧
      idle.kpu.spool.procs = [⟨3, 1000⟩, ⟨4, 2000⟩] ∧ idle.inProgress = none :=
    ⟨_, rfl, fun _ => rfl, rfl, rfl⟩
  obtain ⟨first, wrote, _, asleep, procs, still⟩ :=
    sample_step idle 3 6000 (by simp [user, calls, findProc, spool]) empty
  obtain ⟨second, rewrote, caller, both, _, _⟩ :=
    sample_step first 4 7000 (by simp [user, asleep, calls, findProc, procs, spool]) still
  refine ⟨second, ⟨true, true, false⟩, ?_, ?_, rfl, ?_⟩
  · simp only [twoWriters, run, begun, Option.bind_some, wrote, rewrote]
  · rw [both, asleep, Function.update_of_ne (by decide), Function.update_self]
  · intro pending
    have three := pending.caller
    rw [caller] at three
    cases three

/-! ## Assembly of well-formed submissions -/

/-- The bytes so far hold the whole header, and it promises the total length. -/
def HeaderIn (assembly : Assembly) : Prop :=
  kpuBuffSize ≤ assembly.bytes.length ∧ ∃ total jpgsize : Nat,
    loadU64 assembly.bytes totsizeOffset = some total ∧ (total : Int) = assembly.total ∧
    loadU64 assembly.bytes jpgsizeOffset = some jpgsize ∧ 0 < jpgsize

theorem HeaderIn.ok (header : HeaderIn assembly)
    (whole : (assembly.bytes.length : Int) = assembly.total) : HeaderOk assembly.bytes := by
  obtain ⟨inside, total, jpgsize, totsize, same, sized, nonzero⟩ := header
  have length : total = assembly.bytes.length := by omega
  exact ⟨inside, length ▸ totsize, jpgsize, sized, nonzero⟩

theorem HeaderIn.push (header : HeaderIn assembly) (chunk : Chunk) :
    HeaderIn (assembly.push chunk) := by
  obtain ⟨inside, total, jpgsize, totsize, same, sized, nonzero⟩ := header
  rw [HeaderIn, push_bytes]
  refine ⟨?_, total, jpgsize, loadU64_append totsize _, same, loadU64_append sized _, nonzero⟩
  rw [List.length_append]
  omega

/-- A well-formed chunk belongs to a submission of its sender whose header is
in; it stays within the total length. -/
theorem WellFormed.grown (formed : WellFormed traced pid chunk)
    (headers : ∀ assembly, traced.inProgress = some assembly → HeaderIn assembly) :
    ∃ assembly, KpuProtocol.grown traced.inProgress pid chunk = some assembly ∧
      HeaderIn assembly ∧ assembly.owner = pid := by
  unfold WellFormed at formed
  cases first : checkMagic chunk.buffer with
  | true =>
    rw [first, if_pos rfl] at formed
    obtain ⟨inside, total, jpgsize, totsize, _, small, sized, nonzero⟩ := formed
    have loaded : loadU64 chunk.buffer totsizeOffset = some total := by
      have longer := loadU64_append totsize (chunk.buffer.drop chunk.len)
      rwa [Chunk.data, List.take_append_drop] at longer
    have exact_total : toInt total = total := toInt_small _ (by omega) (by omega)
    have nonnegative : ¬ toInt total < 0 := by omega
    refine ⟨Assembly.push ⟨pid, toInt total, []⟩ chunk, ?_, ⟨?_, total, jpgsize, ?_, ?_, ?_,
      nonzero⟩, rfl⟩
    · simp only [KpuProtocol.grown, first, ↓reduceIte, loaded, nonnegative]
    · rw [first_bytes, Chunk.data_length]
      exact inside
    · rw [first_bytes]
      exact totsize
    · rw [exact_total]
      rfl
    · rw [first_bytes]
      exact sized
  | false =>
    rw [first] at formed
    obtain ⟨assembly, progress, owner, _⟩ := formed
    refine ⟨assembly.push chunk, ?_, (headers assembly progress).push chunk, owner⟩
    simp [KpuProtocol.grown, first, progress]

/-- Well-formed chunks meet the condition for the protocol. -/
theorem Assembling.orderly (assembling : Assembling traced event)
    (headers : ∀ assembly, traced.inProgress = some assembly → HeaderIn assembly) :
    Orderly traced event := by
  cases event with
  | write pid chunk sie mem =>
    obtain ⟨idle, fresh, formed, continues⟩ := assembling
    refine ⟨idle, fresh, continues, ?_⟩
    intro assembly own whole
    obtain ⟨other, same, header, _⟩ := formed.grown headers
    rw [own, Option.some.injEq] at same
    subst same
    exact header.ok whole
  | read pid sie mem junk => exact assembling
  | resume pid => trivial
  | controller mem taskMem created => exact assembling
  | thread k => trivial

theorem record_progress (recorded : (record submitted whole).1 = some assembly) :
    whole = some assembly := by
  cases whole with
  | none => cases recorded
  | some other =>
    simp only [record] at recorded
    split at recorded
    · cases recorded
    · split at recorded
      · exact recorded
      · cases recorded

/-- Steps other than writes keep the submission in progress. -/
theorem step_progress (ran : step traced event = some after)
    (other : ∀ pid chunk sie mem, event ≠ .write pid chunk sie mem) :
    after.inProgress = traced.inProgress := by
  cases event with
  | write pid chunk sie mem => exact absurd rfl (other pid chunk sie mem)
  | read pid sie mem junk =>
    simp only [step] at ran
    split at ran <;> cases ran <;> rfl
  | resume pid =>
    simp only [step] at ran
    split at ran
    · cases ran
      rfl
    · split at ran
      · cases ran
        rfl
      · obtain ⟨_, _, rfl⟩ := Option.map_eq_some_iff.mp ran
        rfl
  | controller mem taskMem created =>
    simp only [step] at ran
    split at ran
    · obtain ⟨_, _, rfl⟩ := Option.map_eq_some_iff.mp ran
      rfl
    · cases ran
      rfl
  | thread k =>
    cases ran
    rfl

/-- One step of a run of well-formed writes. -/
theorem step_assembled (traced : Traced) (event : Event)
    (inv : Inv traced ∧ ∀ assembly, traced.inProgress = some assembly → HeaderIn assembly)
    (assembling : Assembling traced event) :
    ∃ after, step traced event = some after ∧ Assembled traced event after ∧
      Inv after ∧ ∀ assembly, after.inProgress = some assembly → HeaderIn assembly := by
  obtain ⟨inv, headers⟩ := inv
  have orderly := assembling.orderly headers
  cases event with
  | write pid chunk sie mem =>
    obtain ⟨whole, own, header, owner⟩ := assembling.2.2.1.grown headers
    cases free : user traced.kpu pid with
    | false =>
      refine ⟨traced, by simp [step, free], ⟨inv.bounded.2.2, ?_, by simp, ?_, ?_, by simp⟩, inv,
        headers⟩ <;> rintro _ _ _ _
      · rintro _ ⟨⟩ given
        simp [free] at given
      · rintro ⟨⟩ given
        simp [free] at given
      · rintro ⟨⟩ given
        simp [free] at given
    | true =>
      obtain ⟨after, outcome, ran, inv', written⟩ := inv.write orderly free
      refine ⟨_, by simp only [step, free, ↓reduceIte, ran, Option.map_some], ?_, inv', ?_⟩
      · refine ⟨inv'.bounded.2.2, ?_, by simp, ?_, ?_, by simp⟩
        · rintro _ _ _ _ assembly ⟨⟩ _ mine full
          rw [own, Option.some.injEq] at mine
          subst mine
          obtain ⟨_, _, stored, sum, _⟩ := written.complete whole own full
          refine ⟨stored, sum, header.ok full, ?_⟩
          simp only [own, record, full, ↓reduceIte, owner]
        · rintro _ _ _ _ ⟨⟩ _ malformed
          exact absurd assembling.2.2.1 malformed
        · rintro _ _ _ _ ⟨⟩ _
          rcases written.returned (by simp [own]) with ⟨ret, rfl⟩ | asleep
          · exact .inl ⟨ret, ran⟩
          · exact .inr asleep
      · intro assembly progress
        have same := record_progress progress
        rw [own, Option.some.injEq] at same
        exact same ▸ header
  | read pid sie mem junk =>
    obtain ⟨after, ran, _, inv'⟩ := step_served traced _ inv orderly
    refine ⟨after, ran, ⟨inv'.bounded.2.2, by simp, by simp, by simp, by simp, by simp⟩, inv', ?_⟩
    rw [step_progress ran (by simp)]
    exact headers
  | resume pid =>
    obtain ⟨after, ran, _, inv'⟩ := step_served traced _ inv orderly
    refine ⟨after, ran, ⟨inv'.bounded.2.2, by simp, by simp, by simp, by simp, ?_⟩, inv', ?_⟩
    · rintro _ call ⟨⟩ called woken
      obtain ⟨kpu, returned, _⟩ := inv.resume called woken
      have same : after = { traced with kpu := kpu } := by
        simp only [step, called, woken, Bool.false_eq_true, ↓reduceIte, returned, Option.map_some,
          Option.some.injEq] at ran
        exact ran.symm
      rw [same]
      exact returned
    · rw [step_progress ran (by simp)]
      exact headers
  | controller mem taskMem created =>
    cases running : traced.kpu.controller with
    | false =>
      refine ⟨traced, by simp [step, running], ⟨inv.bounded.2.2, by simp, ?_, by simp, by simp,
        by simp⟩, inv, headers⟩
      rintro _ _ _ ⟨⟩ ⟨pid, call, called, asleep, _⟩
      have served := (inv.pending pid call called asleep).served
      rw [running] at served
      cases served
    | true =>
      obtain ⟨after, ran, inv', made⟩ := inv.controller running orderly.1 orderly.2 created
      refine ⟨after, ran, ⟨inv'.bounded.2.2, by simp, ?_, by simp, by simp, by simp⟩, inv', ?_⟩
      · rintro _ _ _ ⟨⟩ writer
        exact made writer
      · rw [step_progress ran (by simp)]
        exact headers
  | thread k =>
    obtain ⟨after, ran, _, inv'⟩ := step_served traced _ inv orderly
    refine ⟨after, ran, ⟨inv'.bounded.2.2, by simp, by simp, by simp, by simp, by simp⟩, inv', ?_⟩
    rw [step_progress ran (by simp)]
    exact headers

/-- **Assembly.** In every run of well-formed writes no chunk goes outside the
buffers, nothing panics, each complete submission is handed over whole and its
buffers are freed once, and interrupts are restored. -/
theorem submissions_assembled (held : ∀ proc ∈ procs, procPid proc.addr = proc.pid)
    (along : Along step Assembling (boot procs procPid) events) :
    Safe step Assembled (boot procs procPid) events :=
  safe_of_invariant step_assembled ⟨boot_inv held, by simp [boot]⟩ along

/-- The chunk of the sample is a submission by itself, well formed. -/
theorem one_writer_assembled : Safe step Assembled writerBoot oneWriter := by
  obtain ⟨first, next⟩ := oneWriter_orderly
  refine submissions_assembled (by simp) ⟨first, fun s1 ran1 => ?_⟩
  obtain ⟨⟨idle, fresh, continues, -⟩, rest⟩ := next s1 ran1
  refine ⟨⟨idle, fresh, ?_, continues⟩, rest⟩
  rw [WellFormed, if_pos sample_first, sample_data]
  exact ⟨by decide, 48, 1, by decide, by decide, by decide, by decide, by decide⟩

/-- One byte, from a kernel buffer that was cleared. -/
def oneByte : Chunk where
  buffer := List.replicate 4096 0
  len := 1
  size := List.length_replicate
  positive := by decide
  within := by decide

/-- A process that is not in the middle of a submission writes one byte. -/
def strayByte : List Event :=
  [.controller (memoryAt 5000) (some 0) true, .write 3 oneByte false (memoryAt 6000)]

theorem stray_byte_panics : ¬ Safe step Assembled (boot [⟨3, 1000⟩] fun _ => 3) strayByte := by
  have unmarked : checkMagic oneByte.buffer = false := by
    rw [checkMagic, oneByte, List.take_replicate]
    decide
  have foreign (kpu : Kpuio) (caller : kpu.callerPid = 0) :
      kpuioWrite kpu oneByte 3 false (memoryAt 6000) = none := by
    simp [kpuioWrite, devKpuioTaskinit, unmarked, caller]
  rintro ⟨idle, begun, _, after, wrote, _⟩
  have caller : idle.kpu.callerPid = 0 := by cases begun; rfl
  have free : user idle.kpu 3 = true := by cases begun; rfl
  simp only [step, free, ↓reduceIte, foreign _ caller, Option.map_none] at wrote
  cases wrote

end Ucore.KpuProtocol
