import Ucore.RingBuffer
import Ucore.Stdin

/-! The keyboard hands every accepted character to one reader, in order, as long as
no other character than the oldest one arrives at a full buffer. -/
namespace Ucore.StdinProofs
open Stdin RingBuffer Runs

variable {device after : Device} {state : State} {c : UInt8} {proc : Nat} {reader : Reader}

instance : NeZero stdinBufsize := ⟨by decide⟩

theorem slot_natCast (p : Nat) : slot p = some (Fin.ofNat stdinBufsize p) := by
  have remainder : (p : Int).tmod stdinBufsize = (p % stdinBufsize : Nat) := (Int.ofNat_tmod p stdinBufsize).symm
  rw [slot, dif_pos (by omega)]
  rfl

theorem wrap_of_lt {p : Int} (nonneg : 0 ≤ p) (small : p < 2 ^ 63) : wrap p = p := by
  rw [wrap, Int.bmod_eq_of_le (by omega) (by omega)]

/-- The positions count what has been accepted and delivered, and the buffer holds what lies between. -/
structure Sound (device : Device) : Prop where
  pRpos : device.pRpos = device.deliveries.length
  pWpos : device.pWpos = device.accepted.length
  behind : device.deliveries.length ≤ device.accepted.length
  room : device.accepted.length ≤ device.deliveries.length + stdinBufsize
  short : device.accepted.length < 2 ^ 63
  window : Window device.stdinBuffer device.accepted device.deliveries.length
  delivered : device.deliveries.map (·.char) <+: device.accepted
  positions : device.deliveries.map (·.position) = (List.range device.deliveries.length).map Nat.cast

theorem boot_sound : Sound boot.toDevice :=
  ⟨rfl, rfl, le_rfl, Nat.zero_le _, by decide, Window.empty _, List.nil_prefix, rfl⟩

/-- A step of a keyboard that loses nothing. -/
structure Lossless (before after : Device) : Prop where
  /-- What the readers have been given is the beginning of what has been accepted. -/
  delivered : after.deliveries.map (·.char) <+: after.accepted
  /-- Each position is delivered at most once, to one reader, in order. -/
  positions : after.deliveries.map (·.position) = (List.range after.deliveries.length).map Nat.cast
  counted : after.pWpos = after.accepted.length
  /-- No character is changed between its acceptance and its delivery. -/
  kept : ∀ pos, after.pRpos ≤ pos → pos < before.pWpos → after.charAt pos = before.charAt pos
  bounded : 0 ≤ after.pWpos - after.pRpos ∧ after.pWpos - after.pRpos ≤ stdinBufsize

/-- When the buffer is full only the character at its front arrives; no position passes the largest. -/
def Fits (state : State) : Event → Prop
  | .char c => c ≠ 0 →
    if state.pWpos - state.pRpos < stdinBufsize then state.pWpos + 1 < 2 ^ 63
    else state.charAt state.pRpos = some c
  | _ => True

/-- The characters that have been delivered to a process, in its calls so far. -/
def given (device : Device) (proc : Nat) : List UInt8 := (device.deliveries.filter (·.proc = proc)).map (·.char)

/-- What the call of a process has stored; nothing without a call. -/
def stored (state : State) (proc : Nat) : List UInt8 := ((state.readers proc).map (·.buf)).getD []

/-- The process stores exactly what is delivered to it, behind what it has stored before, and
its call returns the number of the characters that it has stored. -/
def Stores (before after : State) (proc : Nat) : Prop :=
  ∃ new, given after.toDevice proc = given before.toDevice proc ++ new ∧
    ((∃ reader, after.readers proc = some reader ∧ reader.buf = stored before proc ++ new) ∨
      (after.readers proc = none ∧ before.readers proc = none ∧ new = []) ∨
      (after.readers proc = none ∧
        after.returned = before.returned ++ [(proc, Int.bmod (stored before proc ++ new).length (2 ^ 32))]))

theorem Sound.lossless (sound : Sound after) (same : after.stdinBuffer = device.stdinBuffer) : Lossless device after where
  delivered := sound.delivered
  positions := sound.positions
  counted := sound.pWpos
  kept pos _ _ := by rw [Device.charAt, same, Device.charAt]
  bounded := by
    have behind := sound.behind
    have room := sound.room
    rw [sound.pRpos, sound.pWpos]
    omega

theorem Sound.charAt_front (sound : Sound device) {p : Nat} (low : device.deliveries.length ≤ p) (high : p < device.accepted.length) :
    device.charAt p = some device.accepted[p] := by
  rw [Device.charAt, slot_natCast, Option.map_some, ← sound.window p low high, List.getElem?_eq_getElem high]

/-! ## Writing -/

/-- The write with its positions as counts. -/
theorem Sound.write (sound : Sound device) (nonzero : c ≠ 0) : devStdinWrite device c = some (
    let stored := { device with
      stdinBuffer := Function.update device.stdinBuffer (Fin.ofNat stdinBufsize device.accepted.length) c }
    if device.pWpos - device.pRpos < stdinBufsize then
      { stored with pWpos := wrap (device.accepted.length + 1), accepted := device.accepted ++ [c] }
    else stored) := by
  have behind := sound.behind
  have room := sound.room
  have short := sound.short
  have exact_distance : wrap (device.pWpos - device.pRpos) = device.pWpos - device.pRpos := by
    rw [sound.pWpos, sound.pRpos]
    apply wrap_of_lt
    · omega
    · omega
  rw [devStdinWrite, if_neg nonzero, sound.pWpos, slot_natCast, ← sound.pWpos, exact_distance, sound.pWpos]
  change (if _ then _ else _) = _
  split <;> rfl

/-- A character that fits is accepted, or stored where it already is. -/
theorem Sound.write_fits (sound : Sound state.toDevice) (fits : Fits state (.char c)) :
    ∃ after, devStdinWrite state.toDevice c = some after ∧ Sound after ∧ Lossless state.toDevice after := by
  by_cases zero : c = 0
  · exact ⟨state.toDevice, by rw [devStdinWrite, if_pos zero], sound, sound.lossless rfl⟩
  have fits := fits zero
  have behind := sound.behind
  have distance : state.pWpos - state.pRpos = state.accepted.length - state.deliveries.length := by
    rw [sound.pWpos, sound.pRpos]
  by_cases below : state.pWpos - state.pRpos < stdinBufsize
  · rw [if_pos below, sound.pWpos] at fits
    have room : state.accepted.length < state.deliveries.length + stdinBufsize := by omega
    refine ⟨_, sound.write zero, ?_⟩
    dsimp only
    rw [if_pos below, wrap_of_lt (by omega) fits]
    have accepted : (state.accepted ++ [c]).length = state.accepted.length + 1 := List.length_append
    have after_sound : Sound { state.toDevice with
        stdinBuffer := Function.update state.stdinBuffer (Fin.ofNat stdinBufsize state.accepted.length) c
        pWpos := (state.accepted.length : Int) + 1
        accepted := state.accepted ++ [c] } := {
      sound with
      pWpos := by
        rw [accepted]
        rfl
      behind := by
        rw [accepted]
        exact behind.trans (Nat.le_succ _)
      room := by
        rw [accepted]
        exact room
      short := by
        rw [accepted]
        omega
      window := sound.window.push room
      delivered := sound.delivered.trans (List.prefix_append _ _) }
    refine ⟨after_sound, { after_sound.lossless rfl with kept := fun pos low high => ?_ }⟩
    obtain ⟨p, rfl⟩ : ∃ p : Nat, pos = p := Int.eq_ofNat_of_zero_le (by rw [sound.pRpos] at low; omega)
    rw [sound.pRpos, Nat.cast_le] at low
    rw [sound.pWpos, Nat.cast_lt] at high
    rw [sound.charAt_front low high, after_sound.charAt_front low (by rw [accepted]; omega)]
    rw [List.getElem_append_left high]
  · have full : state.accepted.length = state.deliveries.length + stdinBufsize := by
      have room := sound.room
      omega
    rw [if_neg below] at fits
    have unchanged : Function.update state.stdinBuffer (Fin.ofNat stdinBufsize state.accepted.length) c = state.stdinBuffer := by
      rw [full, ofNat_add_self, Function.update_eq_self_iff]
      rw [sound.pRpos, Device.charAt, slot_natCast] at fits
      exact (Option.some.inj fits).symm
    refine ⟨_, sound.write zero, ?_⟩
    dsimp only
    rw [if_neg below, unchanged]
    exact ⟨sound, sound.lossless rfl⟩

/-- A character that does not fit changes the oldest one, or wraps the position. -/
theorem Sound.fits_of_lossless (sound : Sound state.toDevice) (ran : devStdinWrite state.toDevice c = some after)
    (lossless : Lossless state.toDevice after) : Fits state (.char c) := by
  intro nonzero
  rw [sound.write nonzero] at ran
  have behind := sound.behind
  have short := sound.short
  split
  · rename_i below
    by_contra large
    have last : (state.accepted.length : Int) + 1 = 2 ^ 63 := by
      rw [sound.pWpos] at large
      omega
    simp only [if_pos below, last] at ran
    cases ran
    have bounded := lossless.bounded.1
    change 0 ≤ wrap (2 ^ 63) - state.pRpos at bounded
    rw [sound.pRpos, show wrap (2 ^ 63) = -2 ^ 63 by decide] at bounded
    omega
  · rename_i below
    simp only [if_neg below] at ran
    cases ran
    have full : state.accepted.length = state.deliveries.length + stdinBufsize := by
      have room := sound.room
      rw [sound.pWpos, sound.pRpos] at below
      omega
    have kept := lossless.kept state.pRpos le_rfl (by
      rw [sound.pWpos, sound.pRpos, Nat.cast_lt, full]
      exact Nat.lt_add_of_pos_right (by decide))
    rw [← kept, sound.pRpos, Device.charAt, slot_natCast, full, ofNat_add_self]
    simp

/-! ## Reading -/

theorem Sound.deliver (sound : Sound device) (unread : device.deliveries.length < device.accepted.length) (proc : Nat) :
    Sound (device.deliver proc device.accepted[device.deliveries.length]) where
  pRpos := by
    have short := sound.short
    rw [Device.deliver, sound.pRpos, wrap_of_lt (by omega) (by omega), List.length_append]
    rfl
  pWpos := sound.pWpos
  behind := by
    rw [Device.deliver, List.length_append]
    exact unread
  room := by
    have room := sound.room
    rw [Device.deliver, List.length_append]
    change device.accepted.length ≤ _
    omega
  short := sound.short
  window := by
    rw [Device.deliver, List.length_append]
    exact sound.window.drop (Nat.le_succ _)
  delivered := by
    have taken : device.deliveries.map (·.char) = device.accepted.take device.deliveries.length := by
      rw [List.prefix_iff_eq_take.mp sound.delivered, List.length_map]
    rw [Device.deliver, List.map_append, taken]
    change device.accepted.take device.deliveries.length ++ [device.accepted[device.deliveries.length]] <+: device.accepted
    rw [List.take_append_getElem unread]
    exact List.take_prefix _ _
  positions := by
    rw [Device.deliver, List.length_append, List.map_append, sound.positions, List.length_singleton, List.range_succ,
      List.map_append, sound.pRpos]
    rfl

/-- A reader takes characters from the front until it has enough or there are none left. -/
theorem Sound.fill (sound : Sound device) (turns : Nat) (reader : Reader)
    (enough : device.accepted.length - device.deliveries.length < turns) :
    ∃ result, fill proc turns device reader = some result ∧ Sound result.1 ∧ result.1.stdinBuffer = device.stdinBuffer := by
  induction turns generalizing device reader with
  | zero => cases enough
  | succ turns ih =>
    rw [Stdin.fill]
    split
    · split
      · rename_i unread
        rw [sound.pRpos, sound.pWpos, Nat.cast_lt] at unread
        have front := sound.charAt_front le_rfl unread
        rw [sound.pRpos, front]
        have fewer : device.accepted.length - (device.deliveries.length + 1) < turns := by omega
        obtain ⟨result, ran, sound', same⟩ := ih (sound.deliver unread proc)
          { reader with buf := reader.buf ++ [device.accepted[device.deliveries.length]] }
          (by rwa [Device.deliver, List.length_append])
        exact ⟨result, ran, sound', same⟩
      · exact ⟨_, rfl, sound, rfl⟩
    · exact ⟨_, rfl, sound, rfl⟩

/-- What a reader has stored is what it is recorded to have been given. -/
theorem fill_stores {turns : Nat} {reader' : Reader} {sleeps : Bool} (ran : fill proc turns device reader = some (after, reader', sleeps)) :
    ∃ given : List Delivery, after.deliveries = device.deliveries ++ given ∧ (∀ delivery ∈ given, delivery.proc = proc) ∧
      reader'.buf = reader.buf ++ given.map (·.char) := by
  induction turns generalizing device reader with
  | zero => cases ran
  | succ turns ih =>
    have nothing (stays : some (device, reader, sleeps) = some (after, reader', sleeps)) :
        ∃ given : List Delivery, after.deliveries = device.deliveries ++ given ∧ (∀ delivery ∈ given, delivery.proc = proc) ∧
          reader'.buf = reader.buf ++ given.map (·.char) := by
      cases stays
      exact ⟨[], (List.append_nil _).symm, nofun, (List.append_nil _).symm⟩
    rw [Stdin.fill] at ran
    split at ran
    · split at ran
      · obtain ⟨char, -, rest⟩ := Option.bind_eq_some_iff.mp ran
        obtain ⟨given, deliveries, own, stored⟩ := ih rest
        refine ⟨⟨proc, device.pRpos, char⟩ :: given, ?_, ?_, ?_⟩
        · rw [deliveries, Device.deliver, List.append_assoc]
          rfl
        · rintro delivery (_ | ⟨_, member⟩)
          · rfl
          · exact own delivery member
        · rw [stored, List.append_assoc]
          rfl
      · cases ran
        exact nothing rfl
    · cases ran
      exact nothing rfl

theorem Stores.still {before after : State} (same : given after.toDevice proc = given before.toDevice proc)
    (buf : (after.readers proc).map (·.buf) = (before.readers proc).map (·.buf)) : Stores before after proc := by
  refine ⟨[], by rw [same, List.append_nil], ?_⟩
  cases present : after.readers proc with
  | some reader =>
    rw [present] at buf
    exact .inl ⟨reader, rfl, by rw [List.append_nil, stored, ← buf]; rfl⟩
  | none =>
    rw [present] at buf
    exact .inr (.inl ⟨rfl, Option.map_eq_none_iff.mp buf.symm, rfl⟩)

/-- A call that goes on from what it has stored. -/
theorem devStdinRead_stores {before state after : State} (ran : devStdinRead state proc reader = some after)
    (device : state.toDevice = before.toDevice) (returned : state.returned = before.returned)
    (readers : state.readers = before.readers) (own : reader.buf = stored before proc) (other : Nat) : Stores before after other := by
  rw [devStdinRead, Option.bind_eq_bind, Option.bind_eq_some_iff] at ran
  obtain ⟨⟨filled, reader', sleeps⟩, ran, ended⟩ := ran
  obtain ⟨new, deliveries, mine, buf⟩ := fill_stores ran
  rw [device] at deliveries
  rw [own] at buf
  have got (other : Nat) : given filled other = given before.toDevice other ++ (new.filter (·.proc = other)).map (·.char) := by
    rw [given, deliveries, List.filter_append, List.map_append, given]
  by_cases itself : other = proc
  · subst itself
    have all : new.filter (·.proc = other) = new :=
      List.filter_eq_self.mpr fun delivery member => decide_eq_true (mine delivery member)
    have delivered := got other
    rw [all] at delivered
    cases sleeps with
    | true =>
      cases ended
      exact ⟨_, delivered, .inl ⟨_, Function.update_self _ _ _, buf⟩⟩
    | false =>
      cases ended
      refine ⟨_, delivered, .inr (.inr ⟨Function.update_self _ _ _, ?_⟩)⟩
      rw [← buf, ← returned]
      rfl
  · have nothing : new.filter (·.proc = other) = [] := by
      apply List.filter_eq_nil_iff.mpr
      intro delivery member
      rw [mine delivery member, decide_eq_true_eq]
      exact Ne.symm itself
    have delivered := got other
    rw [nothing, List.map_nil, List.append_nil] at delivered
    have kept : after.toDevice = filled ∧ after.readers other = before.readers other := by
      cases sleeps with
      | true =>
        cases ended
        exact ⟨rfl, (Function.update_of_ne itself _ _).trans (congrFun readers other)⟩
      | false =>
        cases ended
        exact ⟨rfl, (Function.update_of_ne itself _ _).trans (congrFun readers other)⟩
    exact .still (by rw [kept.1, delivered]) (by rw [kept.2])

theorem Sound.devStdinRead (sound : Sound state.toDevice) (proc : Nat) (reader : Reader) :
    ∃ after, devStdinRead state proc reader = some after ∧ Sound after.toDevice ∧ Lossless state.toDevice after.toDevice := by
  obtain ⟨⟨device, reader', sleeps⟩, ran, sound', same⟩ :=
    sound.fill ((state.pWpos - state.pRpos).toNat + 1) reader (by rw [sound.pWpos, sound.pRpos]; omega)
  refine ⟨_, by rw [Stdin.devStdinRead, ran]; rfl, ?_⟩
  cases sleeps with
  | false => exact ⟨sound', sound'.lossless same⟩
  | true => exact ⟨sound', sound'.lossless same⟩

/-! ## Waiting -/

theorem wakeupQueue_device (state : State) : (wakeupQueue state).toDevice = state.toDevice := by
  have woken (procs : List Nat) (state : State) : (procs.foldl wakeupWait state).toDevice = state.toDevice := by
    induction procs generalizing state with
    | nil => rfl
    | cons proc procs ih => exact ih (wakeupWait state proc)
  exact woken state.waitQueue state

theorem inputWakeup_device (state : State) : (inputWakeup state).toDevice = state.toDevice := by
  rw [inputWakeup]
  split
  · exact wakeupQueue_device state
  · rfl

theorem kill_device (state : State) (proc : Nat) : (kill state proc).toDevice = state.toDevice := by
  rw [kill]
  split <;> rfl

theorem update_buf (readers : Nat → Option Reader) (proc other : Nat) {change : Reader → Reader}
    (keeps : ∀ reader, (change reader).buf = reader.buf) :
    (Function.update readers proc ((readers proc).map change) other).map (·.buf) = (readers other).map (·.buf) := by
  by_cases itself : other = proc
  · rw [itself, Function.update_self, Option.map_map]
    exact congrArg (Option.map · (readers proc)) (funext keeps)
  · rw [Function.update_of_ne itself]

theorem wakeupProc_buf (state : State) (proc other : Nat) :
    ((wakeupProc state proc).readers other).map (·.buf) = (state.readers other).map (·.buf) :=
  update_buf state.readers proc other fun _ => rfl

theorem wakeupWait_buf (state : State) (proc other : Nat) :
    ((wakeupWait state proc).readers other).map (·.buf) = (state.readers other).map (·.buf) := by
  rw [← wakeupProc_buf state proc other]
  exact update_buf (wakeupProc state proc).readers proc other fun _ => rfl

theorem inputWakeup_buf (state : State) (other : Nat) :
    ((inputWakeup state).readers other).map (·.buf) = (state.readers other).map (·.buf) := by
  have woken (procs : List Nat) (state : State) :
      ((procs.foldl wakeupWait state).readers other).map (·.buf) = (state.readers other).map (·.buf) := by
    induction procs generalizing state with
    | nil => rfl
    | cons proc procs ih => exact (ih (wakeupWait state proc)).trans (wakeupWait_buf state proc other)
  rw [inputWakeup]
  split
  · exact woken state.waitQueue state
  · rfl

theorem kill_buf (state : State) (proc other : Nat) :
    ((kill state proc).readers other).map (·.buf) = (state.readers other).map (·.buf) := by
  rw [kill]
  split
  · rfl
  · exact wakeupProc_buf _ proc other

theorem devStdinWrite_deliveries (written : devStdinWrite device c = some after) : after.deliveries = device.deliveries := by
  rw [devStdinWrite] at written
  split at written
  · cases written
    rfl
  · obtain ⟨index, -, written⟩ := Option.bind_eq_some_iff.mp written
    split at written
    · cases written
      rfl
    · cases written
      rfl

/-- Whatever happens, the processes store what is delivered to them. -/
theorem step_stores {event : Event} {after : State} (ran : step state event = some after) (other : Nat) : Stores state after other := by
  cases event with
  | char c =>
    obtain ⟨device, written, rfl⟩ := Option.map_eq_some_iff.mp ran
    exact .still (by rw [given, devStdinWrite_deliveries written, given]) rfl
  | tick =>
    cases ran
    exact .still (by rw [inputWakeup_device]) (inputWakeup_buf state other)
  | kill proc =>
    cases ran
    exact .still (by rw [kill_device]) (kill_buf state proc other)
  | wake proc =>
    cases ran
    exact .still rfl (wakeupProc_buf state proc other)
  | read proc len =>
    rw [Stdin.step] at ran
    split at ran
    · rename_i outside
      exact devStdinRead_stores ran rfl rfl rfl (by rw [stored, outside]; rfl) other
    · cases ran
      exact .still rfl rfl
  | schedule proc =>
    rw [Stdin.step] at ran
    split at ran
    · cases ran
      exact .still rfl rfl
    rename_i reader inside
    have own : reader.buf = stored state proc := by
      rw [stored, inside]
      rfl
    split at ran
    · cases ran
      exact .still rfl rfl
    rw [resume] at ran
    split at ran
    · exact devStdinRead_stores ran rfl rfl rfl own other
    · cases ran
      by_cases itself : other = proc
      · rw [itself]
        refine ⟨[], (List.append_nil _).symm, .inr (.inr ⟨Function.update_self _ _ _, ?_⟩)⟩
        rw [List.append_nil, ← own]
        rfl
      · have kept : (finish (waitCurrentDel state proc) proc reader).readers other = state.readers other :=
          Function.update_of_ne itself _ _
        exact .still rfl (congrArg _ kept)

/-! ## Runs -/

/-- Every event but a character that does not fit loses nothing. -/
theorem Sound.keeps (sound : Sound state.toDevice) (event : Event) (fits : Fits state event) :
    ∃ after, step state event = some after ∧ Lossless state.toDevice after.toDevice ∧ Sound after.toDevice := by
  have still {after : State} (same : after.toDevice = state.toDevice) :
      Lossless state.toDevice after.toDevice ∧ Sound after.toDevice := by
    rw [same]
    exact ⟨sound.lossless rfl, sound⟩
  cases event with
  | char c =>
    obtain ⟨device, ran, sound', lossless⟩ := sound.write_fits fits
    exact ⟨{ state with toDevice := device }, by rw [Stdin.step, ran]; rfl, lossless, sound'⟩
  | tick => exact ⟨_, rfl, still (inputWakeup_device state)⟩
  | kill proc => exact ⟨_, rfl, still (kill_device state proc)⟩
  | wake proc => exact ⟨_, rfl, still rfl⟩
  | read proc len =>
    rw [Stdin.step]
    split
    · obtain ⟨after, ran, sound', lossless⟩ := sound.devStdinRead proc ⟨len, [], false, 0⟩
      exact ⟨after, ran, lossless, sound'⟩
    · exact ⟨state, rfl, still rfl⟩
  | schedule proc =>
    rw [Stdin.step]
    split
    · exact ⟨state, rfl, still rfl⟩
    · rename_i reader _
      split
      · exact ⟨state, rfl, still rfl⟩
      · rw [resume]
        split
        · have sound : Sound (waitCurrentDel state proc).toDevice := sound
          obtain ⟨after, ran, sound', lossless⟩ := sound.devStdinRead proc reader
          exact ⟨after, ran, lossless, sound'⟩
        · exact ⟨_, rfl, still rfl⟩

theorem Sound.lossless_iff (sound : Sound state.toDevice) (events : List Event) :
    Safe step (fun state _ after => Lossless state.toDevice after.toDevice) state events ↔ Along step Fits state events := by
  refine safe_iff_along (fun state event (sound : Sound state.toDevice) => ?_) ?_ sound
  · constructor
    · rintro ⟨after, ran, lossless⟩
      cases event with
      | char c =>
        obtain ⟨device, written, rfl⟩ := Option.map_eq_some_iff.mp ran
        exact sound.fits_of_lossless written lossless
      | _ => trivial
    · intro fits
      obtain ⟨after, ran, lossless, -⟩ := sound.keeps event fits
      exact ⟨after, ran, lossless⟩
  · intro state event after sound fits ran
    obtain ⟨after', ran', -, sound'⟩ := sound.keeps event fits
    cases ran.symm.trans ran'
    exact sound'

/-- A run loses nothing if and only if every character that arrives fits. In every run each process
stores what is delivered to it, and its calls return how many characters that is. -/
theorem keyboard_lossless_iff (events : List Event) :
    (Safe step (fun state _ after => Lossless state.toDevice after.toDevice) boot events ↔ Along step Fits boot events) ∧
      Along step (fun state event => ∀ after, step state event = some after → ∀ proc, Stores state after proc) boot events :=
  ⟨boot_sound.lossless_iff events, along_of_forall (fun _ _ _ _ ran => step_stores ran) boot⟩

/-! ## A full buffer -/

theorem Sound.accepts (sound : Sound state.toDevice) (nonzero : c ≠ 0)
    (room : state.accepted.length < state.deliveries.length + stdinBufsize) (short : state.accepted.length + 1 < 2 ^ 63) :
    ∃ after, step state (.char c) = some after ∧ Sound after.toDevice ∧ after.accepted = state.accepted ++ [c] ∧
      after.deliveries = state.deliveries := by
  have below : state.pWpos - state.pRpos < stdinBufsize := by
    rw [sound.pWpos, sound.pRpos]
    omega
  have fits : Fits state (.char c) := fun _ => by
    rw [if_pos below, sound.pWpos]
    omega
  obtain ⟨after, ran, sound', -⟩ := sound.write_fits fits
  refine ⟨{ state with toDevice := after }, by rw [Stdin.step, ran]; rfl, sound', ?_⟩
  rw [sound.write nonzero, if_pos below] at ran
  cases ran
  exact ⟨rfl, rfl⟩

theorem Sound.run_chars (sound : Sound state.toDevice) (nonzero : c ≠ 0) (count : Nat)
    (room : state.accepted.length + count ≤ state.deliveries.length + stdinBufsize)
    (short : state.accepted.length + count < 2 ^ 63) :
    ∃ after, run step state (List.replicate count (.char c)) = some after ∧ Sound after.toDevice ∧
      after.accepted = state.accepted ++ List.replicate count c ∧ after.deliveries = state.deliveries := by
  induction count generalizing state with
  | zero => exact ⟨state, rfl, sound, (List.append_nil _).symm, rfl⟩
  | succ count ih =>
    obtain ⟨next, ran, sound', accepted, deliveries⟩ := sound.accepts nonzero (by omega) (by omega)
    have longer : next.accepted.length = state.accepted.length + 1 := by rw [accepted, List.length_append]; rfl
    obtain ⟨after, ran', sound'', accepted', deliveries'⟩ := ih sound' (by rw [deliveries]; omega) (by omega)
    refine ⟨after, ?_, sound'', ?_, deliveries'.trans deliveries⟩
    · rw [List.replicate_succ, run, ran]
      exact ran'
    · rw [accepted', accepted, List.append_assoc, List.replicate_succ]
      rfl

/-- A character after a full buffer takes the place of the first one. -/
theorem full_buffer_loses : ¬ Safe step (fun state _ after => Lossless state.toDevice after.toDevice) boot
    (List.replicate 4096 (.char 97) ++ [.char 98]) := by
  intro safe
  obtain ⟨full, ran, sound, accepted, deliveries⟩ :=
    boot_sound.run_chars (c := 97) (by decide) 4096 (by decide) (by decide)
  have fits := ((sound.lossless_iff [.char 98]).mp (safe.append ran)).1 (by decide)
  have count : full.accepted.length = 4096 := by rw [accepted]; exact List.length_replicate
  have none_read : full.deliveries.length = 0 := by rw [deliveries]; rfl
  have front := sound.charAt_front (p := 0) (by omega) (by omega)
  rw [if_neg (by rw [sound.pWpos, sound.pRpos, count, none_read]; decide), sound.pRpos, none_read, front] at fits
  have first : full.accepted[0]? = some 97 := by rw [accepted]; rfl
  rw [List.getElem?_eq_getElem (by omega)] at first
  cases fits.symm.trans first

end Ucore.StdinProofs
