import Ucore.DupMmapProofs

/-! Any number of address spaces, and calls on their vmas in any order. The lists stay in
order as long as no request wraps around or runs into a vma from below, and no copy
comes upon a page of a device or runs out of memory. -/
namespace Ucore.MmMap
open Call Paging UserMem UserMemProofs

abbrev Space := AddressSpace (Nat → Bool)

/-- The memory, and the address spaces in it by number. -/
structure Spaces where
  vm : Vm
  mms : Nat → Mm
  pgdirs : Nat → Nat

namespace Spaces

def space (spaces : Spaces) (id : Nat) : Space := ⟨spaces.vm, spaces.mms id, spaces.pgdirs id⟩

def put (spaces : Spaces) (id : Nat) (space : Space) : Spaces :=
  { spaces with vm := space.vm, mms := Function.update spaces.mms id space.mm }

variable {spaces : Spaces} {id other : Nat} {space : Space}

@[simp] theorem put_here : (spaces.put id space).mms id = space.mm := Function.update_self _ _ _

@[simp] theorem put_there (apart : other ≠ id) : (spaces.put id space).mms other = spaces.mms other :=
  Function.update_of_ne apart _ _

end Spaces

def onSpace {α : Type} (id : Nat) (call : Call (Space) α) : Call Spaces α :=
  within (fun spaces => spaces.space id) (fun space spaces => spaces.put id space) call

/-- The calls on vmas. -/
inductive Request where
  | mmMap (id addr len : Nat) (vmFlags : VmFlags)
  | findVma (id addr : Nat)
  | dupMmap (target source : Nat)

inductive Answer where
  | mapped (outcome : Except Int Vma)
  | found (vma : Option Vma)
  | copied (outcome : Except Int Unit)

namespace Request

/-- The space that a call may change. -/
def subject : Request → Nat
  | mmMap id .. => id
  | findVma id _ => id
  | dupMmap target _ => target

def call : Request → Call Spaces Answer
  | mmMap id addr len vmFlags => do
    let outcome ← onSpace id (attempt (MmMap.mmMap addr len vmFlags))
    return .mapped outcome
  | findVma id addr => do
    let vma ← onSpace id (MmMap.findVma addr)
    return .found vma
  | dupMmap target source => do
    let spaces ← gets fun spaces => spaces
    let outcome ← onSpace target (attempt (MmMap.dupMmap (spaces.pgdirs source) (spaces.mms source)))
    return .copied outcome

/-- A copy is made into a space that is new. -/
def Permitted (spaces : Spaces) : Request → Prop
  | dupMmap target source => target ≠ source ∧ spaces.mms target = ⟨[], none⟩
  | _ => True

/-- The pages that a copy is to map. -/
def pages (spaces : Spaces) (source : Nat) : Finset Nat :=
  userPages.filter fun page => PagesOf (spaces.mms source).mmapList page ∧ look spaces.vm (spaces.pgdirs source) page ≠ none

/-- A request to map is clear; a copy has no page of a device before it, and the memory for its pages, tables and vmas. -/
def Fits (spaces : Spaces) : Request → Prop
  | mmMap id addr len _ => Clear (spaces.space id) addr len
  | findVma .. => True
  | dupMmap target source =>
    (∀ page, PagesOf (spaces.mms source).mmapList page → ¬ OnDevice spaces.vm (spaces.pgdirs source) page) ∧
      need spaces.vm (spaces.pgdirs target) (pages spaces source) + lacks spaces.vm.room (spaces.mms source).mmapList.length ≤ spare spaces.vm

/-- What the answer to a call has to be. -/
def Answers (spaces after : Spaces) : Request → Answer → Prop
  | mmMap id addr len vmFlags, .mapped outcome => Answered (spaces.space id) (after.space id) addr len vmFlags outcome
  | findVma id addr, .found vma => (after.mms id).mmapList = (spaces.mms id).mmapList ∧
      ∀ other, vma = some other ↔ other ∈ (spaces.mms id).mmapList ∧ other.holds addr
  | dupMmap .., .copied _ => True
  | _, _ => False

end Request

def step (spaces : Spaces) (request : Request) : Option Spaces := (request.call spaces).map Prod.snd

/-- The lists of all spaces are in order. -/
structure InOrder (roots : Finset Nat) (kernel : Nat → Prop) (spaces : Spaces) : Prop where
  valid : ∀ id, Valid (spaces.mms id)
  member : ∀ id, spaces.pgdirs id ∈ roots
  counts : ∃ role idle, Counted spaces.vm roots kernel idle (fun _ => 0) role

/-- A call comes back with its answer; the lists of all spaces are valid, and only that of its subject has changed. -/
structure Served (spaces : Spaces) (request : Request) (after : Spaces) : Prop where
  valid : ∀ id, Valid (after.mms id)
  others : ∀ id, id ≠ request.subject → after.mms id = spaces.mms id
  answer : ∃ answer, request.call spaces = some (.ok answer, after) ∧ request.Answers spaces after answer

variable {roots : Finset Nat} {kernel : Nat → Prop} {spaces : Spaces}

theorem InOrder.put (order : InOrder roots kernel spaces) {id : Nat} {space : Space} (sound : Sound roots kernel space) :
    InOrder roots kernel (spaces.put id space) := by
  refine ⟨fun other => ?_, order.member, sound.counts⟩
  by_cases same : other = id
  · rw [same, Spaces.put_here]
    exact sound.valid
  · rw [Spaces.put_there same]
    exact order.valid other

/-- Whatever a call leaves of its space, the others stay. -/
theorem InOrder.served (order : InOrder roots kernel spaces) {request : Request} {space : Space} {answer : Answer}
    (sound : Sound roots kernel space) (ran : request.call spaces = some (.ok answer, spaces.put request.subject space))
    (answers : request.Answers spaces (spaces.put request.subject space) answer) :
    ∃ after, step spaces request = some after ∧ Served spaces request after ∧ InOrder roots kernel after := by
  have order' : InOrder roots kernel (spaces.put request.subject space) := order.put sound
  refine ⟨_, ?_, ⟨order'.valid, fun id apart => Spaces.put_there apart, answer, ran, answers⟩, order'⟩
  rw [step, ran]
  rfl

theorem InOrder.sound (order : InOrder roots kernel spaces) (id : Nat) : Sound roots kernel (spaces.space id) :=
  ⟨order.valid id, order.counts⟩

theorem Answered.congr {space after after' : Space} {addr len : Nat} {vmFlags : VmFlags} {outcome : Except Int Vma}
    (answered : Answered space after addr len vmFlags outcome) (same : after'.mm = after.mm) :
    Answered space after' addr len vmFlags outcome := by
  refine ⟨answered.invalid, ?_, ?_⟩
  · rw [same]
    exact answered.inserted
  · rw [same]
    exact answered.unchanged

/-- A call on one space, by its outcome. -/
theorem attempt_onSpace {α : Type} {call : Call (Space) α} {id : Nat} {outcome : Except Int α} {after : Space}
    (ran : call (spaces.space id) = some (outcome, after)) :
    onSpace id (attempt call) spaces = some (.ok outcome, spaces.put id after) := by
  rw [onSpace, within, attempt, ran]
  rfl

/-- What a call that settles comes back with, where it does not stop. -/
theorem ends_of_settles {σ α : Type} {call : Call σ α} {post : α → σ → Prop} {bad : Int → σ → Prop} {halt : Prop} {state : σ}
    (settles : Settles call post bad halt state) (goes_on : ¬ halt) :
    (∃ value after, Returns call state value after ∧ post value after) ∨ ∃ ret after, Fails call state ret after ∧ bad ret after := by
  cases ran : call state with
  | none => exact absurd (settles.stops ran) goes_on
  | some reached =>
    obtain ⟨outcome, after⟩ := reached
    cases outcome with
    | ok value => exact .inl ⟨value, after, ran, settles.returns value after ran⟩
    | error ret => exact .inr ⟨ret, after, ran, settles.fails ret after ran⟩

/-- A call whose endings agree with each other. -/
theorem answer_of_settles {σ α : Type} {call : Call σ α} (good : Except Int α → σ → Prop) {halt : Prop} {state : σ}
    (settles : Settles call (fun value after => good (.ok value) after) (fun ret after => good (.error ret) after) halt state)
    (goes_on : ¬ halt) : ∃ outcome after, call state = some (outcome, after) ∧ good outcome after := by
  rcases ends_of_settles settles goes_on with ⟨value, after, ran, held⟩ | ⟨ret, after, ran, held⟩
  · exact ⟨.ok value, after, ran, held⟩
  · exact ⟨.error ret, after, ran, held⟩

/-- Every call that fits is served. -/
theorem request_served (order : InOrder roots kernel spaces) {request : Request} (permitted : request.Permitted spaces)
    (fits : request.Fits spaces) : ∃ after, step spaces request = some after ∧ Served spaces request after ∧ InOrder roots kernel after := by
  cases request with
  | mmMap id addr len vmFlags =>
    obtain ⟨outcome, after, ran, held⟩ := answer_of_settles
      (fun outcome after => (Answered (spaces.space id) after addr len vmFlags outcome ↔ Clear (spaces.space id) addr len) ∧ Sound roots kernel after)
      (mmMap_settles (order.sound id)) (not_not_intro fits)
    have answered : Answered (spaces.space id) after addr len vmFlags outcome := held.1.mpr fits
    have returned : Returns (Request.mmMap id addr len vmFlags).call spaces (.mapped outcome) (spaces.put id after) :=
      returns_bind.mpr ⟨_, _, attempt_onSpace ran, rfl⟩
    have same : ((spaces.put id after).space id).mm = after.mm := Spaces.put_here
    exact order.served held.2 returned (answered.congr same)
  | findVma id addr =>
    have valid := order.valid id
    have returned {vma : Option Vma} {cached : Mm} (found : UserMem.findVma (spaces.mms id) addr = (cached, vma)) :
        Returns (Request.findVma id addr).call spaces (.found vma) (spaces.put id { spaces.space id with mm := cached }) := by
      refine returns_bind.mpr ⟨vma, _, returns_within.mpr ⟨{ spaces.space id with mm := cached }, ?_, rfl⟩, rfl⟩
      rw [Returns, findVma, Spaces.space, found]
    by_cases held : ∃ vma ∈ (spaces.mms id).mmapList, vma.holds addr
    · obtain ⟨vma, member, holds⟩ := held
      obtain ⟨cached, found, looked⟩ := findVma_some valid.wellformed member holds
      have sound : Sound roots kernel { spaces.space id with mm := cached } := ⟨valid.looked looked, order.counts⟩
      refine order.served sound (returned found) ⟨?_, fun other => ⟨?_, fun both => ?_⟩⟩
      · change ((spaces.put id _).mms id).mmapList = _
        rw [Spaces.put_here]
        exact looked.mmapList
      · rintro ⟨⟩
        exact ⟨member, holds⟩
      · rw [valid.wellformed.unique member both.1 holds both.2]
    · have nobody : ∀ vma ∈ (spaces.mms id).mmapList, ¬ vma.holds addr := fun vma member holds => held ⟨vma, member, holds⟩
      have found := findVma_none valid.wellformed nobody
      refine order.served (order.sound id) (returned found) ⟨?_, fun other => ⟨fun missing => absurd missing (Option.some_ne_none other).symm, fun both => absurd both.2 (nobody other both.1)⟩⟩
      change ((spaces.put id _).mms id).mmapList = _
      rw [Spaces.put_here]
      rfl
  | dupMmap target source =>
    obtain ⟨-, fresh⟩ := permitted
    obtain ⟨plain, enough⟩ := fits
    obtain ⟨role, idle, counted⟩ := order.counts
    have ordered : Ordered ((spaces.mms source).mmapList ++ (spaces.space target).mm.mmapList) := by
      rw [Spaces.space, fresh, List.append_nil]
      exact (order.valid source).toOrdered
    have cached : ∀ vma, (spaces.space target).mm.mmapCache = some vma → vma ∈ (spaces.space target).mm.mmapList := by
      rw [Spaces.space, fresh]
      rintro _ ⟨⟩
    have settles : Settles (dupMmap (spaces.pgdirs source) (spaces.mms source)) (fun _ after => Sound roots kernel after)
        (fun _ after => Sound roots kernel after) False (spaces.space target) := by
      refine (dupVmas_settles (order.member source) counted (order.member target) ordered cached
        (fun page inside mapped => by_contra fun special => plain page inside ⟨special, mapped⟩)
        (fun page inside => own_user (Finset.mem_filter.mp inside).1)
        (fun page inside mapped => Finset.mem_filter.mpr ⟨(order.valid source).toOrdered.pages_user inside, inside, mapped⟩)
        (fun _ => map_takes_back) fun short => absurd enough (Nat.not_le_of_lt short)).weaken (fun _ after dups => ?_) fun _ after failed => ?_
      · obtain ⟨role', idle', counted', -⟩ := dups.copied
        refine ⟨⟨?_, ?_⟩, role', idle', counted'⟩
        · rw [dups.mm]
          exact ordered
        · rw [dups.mm, Spaces.space, fresh]
          rintro _ ⟨⟩
      · obtain ⟨front, copied, split, mm⟩ := failed.2.mm
        refine ⟨⟨?_, ?_⟩, failed.2.counts⟩
        · rw [mm]
          rw [split, List.append_assoc] at ordered
          exact ordered.suffix
        · rw [mm, Spaces.space, fresh]
          rintro _ ⟨⟩
    obtain ⟨outcome, after, ran, sound⟩ := answer_of_settles (fun _ after => Sound roots kernel after) settles id
    have returned : Returns (Request.dupMmap target source).call spaces (.copied outcome) (spaces.put target after) :=
      returns_bind.mpr ⟨spaces, spaces, rfl, returns_bind.mpr ⟨_, _, attempt_onSpace ran, rfl⟩⟩
    exact order.served sound returned trivial

/-- In every run of calls that fit, no call stops, each is answered as it has to be, and the vmas of every space
stay sorted, apart and aligned. -/
theorem vma_lists_in_order (roots : Finset Nat) (kernel : Nat → Prop) (spaces : Spaces) (requests : List Request)
    (order : InOrder roots kernel spaces)
    (along : Runs.Along step (fun spaces request => request.Permitted spaces ∧ request.Fits spaces) spaces requests) :
    Runs.Safe step Served spaces requests :=
  Runs.safe_of_invariant (fun _ _ order both => request_served order both.1 both.2) order along

/-- Two directories without vmas. -/
def freshSpaces : Spaces := ⟨blankVm 2, fun _ => ⟨[], none⟩, fun id => nbase + id % 2⟩

theorem freshSpaces_inOrder : InOrder {nbase, nbase + 1} (fun _ => False) freshSpaces := by
  have lawful : Paging.Lawful (blankVm 2) {nbase, nbase + 1} fun _ => False := by
    apply blankVm_lawful (by decide)
    decide
  obtain ⟨role, counted⟩ := lawful.counts
  refine ⟨fun id => ⟨⟨nofun, nofun, nofun, List.Pairwise.nil⟩, nofun⟩, fun id => ?_, role, _, counted⟩
  rcases Nat.mod_two_eq_zero_or_one id with even | odd
  · change nbase + id % 2 ∈ _
    rw [even]
    exact Finset.mem_insert_self _ _
  · change nbase + id % 2 ∈ _
    rw [odd]
    exact Finset.mem_insert_of_mem (Finset.mem_singleton_self _)

/-- A segment is mapped, found and copied. -/
theorem vma_lists_mapped : Runs.Safe step Served freshSpaces
    [.mmMap 0 0x800010 0x1800 ⟨true, false, true, false⟩, .findVma 0 0x801000, .dupMmap 1 0] := by
  apply vma_lists_in_order {nbase, nbase + 1} (fun _ => False) _ _ freshSpaces_inOrder
  let vma : Vma := ⟨0x800000, 0x802000, ⟨true, false, true, false⟩⟩
  let first : Spaces := freshSpaces.put 0 ⟨blankVm 2, ⟨[vma], none⟩, nbase⟩
  let second : Spaces := first.put 0 ⟨blankVm 2, ⟨[vma], some vma⟩, nbase⟩
  have mapped : step freshSpaces (.mmMap 0 0x800010 0x1800 ⟨true, false, true, false⟩) = some first := rfl
  have found : step first (.findVma 0 0x801000) = some second := rfl
  refine ⟨⟨trivial, .inr (.inr ⟨by decide, nofun, nofun⟩)⟩, fun after ran => ⟨⟨trivial, trivial⟩, fun after' ran' => ⟨?_, fun _ _ => trivial⟩⟩⟩
  rw [mapped] at ran
  cases ran
  rw [found] at ran'
  cases ran'
  refine ⟨⟨by decide, rfl⟩, fun page _ device => device.2 blank_look, ?_⟩
  have no_pages : Request.pages second 0 = ∅ := Finset.filter_eq_empty_iff.mpr fun page _ both => both.2 blank_look
  rw [no_pages]
  exact Nat.zero_le _

/-- A segment in front of the first that runs into it stops the system. -/
theorem straddling_request_panics : (Runs.run step freshSpaces
      [.mmMap 0 0x801000 0x1000 ⟨true, false, true, false⟩, .mmMap 0 0x800000 0x2000 ⟨true, false, true, false⟩]).isNone ∧
    ¬ Runs.Safe step Served freshSpaces
      [.mmMap 0 0x801000 0x1000 ⟨true, false, true, false⟩, .mmMap 0 0x800000 0x2000 ⟨true, false, true, false⟩] := by
  have stopped : (Runs.run step freshSpaces
      [.mmMap 0 0x801000 0x1000 ⟨true, false, true, false⟩, .mmMap 0 0x800000 0x2000 ⟨true, false, true, false⟩]).isNone := by decide +kernel
  refine ⟨stopped, ?_⟩
  rintro ⟨first, ran, -, second, ran', -⟩
  rw [Runs.run, ran, Option.bind_some, Runs.run, ran'] at stopped
  cases stopped

end Ucore.MmMap
