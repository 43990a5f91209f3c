import Ucore.UserMem

/-! What the checks promise. `user_mem_check` walks the vmas that a range runs
through; `copy_string` asks it for one page at a time, and a page lies in one
vma, so that it stops at exactly the strings that can be read. -/
namespace Ucore.UserMemProofs
open Paging UserMem

variable {mm after : Mm} {vma : Vma} {addr start finish : Nat} {write : Bool}

/-- The two vmas share no address. -/
def Apart (a b : Vma) : Prop := a.vmEnd ≤ b.vmStart ∨ b.vmEnd ≤ a.vmStart

instance : Std.Symm Apart := ⟨fun _ _ apart => Or.symm apart⟩

/-- The vmas of an mm, as `mm_map` makes them. -/
structure Wellformed (mm : Mm) : Prop where
  nonempty : ∀ vma ∈ mm.mmapList, vma.vmStart < vma.vmEnd
  aligned : ∀ vma ∈ mm.mmapList, vma.vmStart % pgsize = 0 ∧ vma.vmEnd % pgsize = 0
  disjoint : mm.mmapList.Pairwise Apart
  cached : ∀ vma, mm.mmapCache = some vma → vma ∈ mm.mmapList

theorem holds_iff : vma.holds addr ↔ vma.vmStart ≤ addr ∧ addr < vma.vmEnd := by
  simp [Vma.holds]

/-! ## Finding a vma -/

theorem Wellformed.unique {other : Vma} (wellformed : Wellformed mm) (member : vma ∈ mm.mmapList)
    (others : other ∈ mm.mmapList) (holds : vma.holds addr) (otherHolds : other.holds addr) :
    vma = other := by
  by_contra differ
  have apart := wellformed.disjoint.forall member others differ
  rw [holds_iff] at holds otherHolds
  unfold Apart at apart
  omega

/-- Only the cache may change. -/
structure Looked (mm after : Mm) : Prop where
  wellformed : Wellformed after
  mmapList : after.mmapList = mm.mmapList

theorem Looked.trans {third : Mm} (first : Looked mm after) (second : Looked after third) :
    Looked mm third := ⟨second.wellformed, second.mmapList.trans first.mmapList⟩

theorem findVma_some (wellformed : Wellformed mm) (member : vma ∈ mm.mmapList)
    (holds : vma.holds addr) : ∃ after, findVma mm addr = (after, some vma) ∧ Looked mm after := by
  have found : (mm.mmapCache.filter (·.holds addr)).or (mm.mmapList.find? (·.holds addr)) = some vma := by
    cases kept : mm.mmapCache.filter (·.holds addr) with
    | some cached =>
      obtain ⟨inCache, cachedHolds⟩ := Option.filter_eq_some_iff.mp kept
      rw [Option.some_or,
        wellformed.unique (wellformed.cached cached inCache) member cachedHolds holds]
    | none =>
      rw [Option.none_or]
      cases scanned : mm.mmapList.find? (·.holds addr) with
      | none => exact absurd holds (by simpa using List.find?_eq_none.mp scanned vma member)
      | some other =>
        have otherHolds : other.holds addr := by simpa using List.find?_some scanned
        rw [wellformed.unique (List.mem_of_find?_eq_some scanned) member otherHolds holds]
  refine ⟨{ mm with mmapCache := some vma }, by simp [findVma, found], ⟨wellformed.nonempty,
    wellformed.aligned, wellformed.disjoint, fun other same => ?_⟩, rfl⟩
  cases same
  exact member

theorem findVma_none (wellformed : Wellformed mm) (nobody : ∀ vma ∈ mm.mmapList, ¬vma.holds addr) :
    findVma mm addr = (mm, none) := by
  have kept : mm.mmapCache.filter (·.holds addr) = none := by
    refine Option.filter_eq_none_iff.mpr fun cached inCache => ?_
    exact nobody cached (wellformed.cached cached inCache)
  have scanned : mm.mmapList.find? (·.holds addr) = none := List.find?_eq_none.mpr nobody
  simp [findVma, kept, scanned]

/-! ## The scan of a range -/

/-- A byte of a range from `start` on may be accessed. A write may not start in the
lowest page of a stack. -/
def Permitted (mm : Mm) (write : Bool) (start byte : Nat) : Prop :=
  ∃ vma ∈ mm.mmapList, vma.holds byte ∧ vma.grants write ∧
    (write → vma.vmFlags.stack → vma.vmStart + pgsize ≤ max start vma.vmStart)

theorem Looked.permitted (looked : Looked mm after) {byte : Nat} :
    Permitted after write start byte ↔ Permitted mm write start byte := by
  unfold Permitted
  rw [looked.mmapList]

/-- Behind the vma that holds `start`, the other vmas begin after it. -/
theorem permitted_behind {byte : Nat} (wellformed : Wellformed mm) (member : vma ∈ mm.mmapList)
    (holds : vma.holds start) (behind : vma.vmEnd ≤ byte) :
    Permitted mm write vma.vmEnd byte ↔ Permitted mm write start byte := by
  unfold Permitted
  refine exists_congr fun other => and_congr_right fun others => and_congr_right fun otherHolds => ?_
  have differ : vma ≠ other := by
    rintro rfl
    have within := holds_iff.mp otherHolds
    omega
  have apart := wellformed.disjoint.forall member others differ
  rw [holds_iff] at holds otherHolds
  have later : vma.vmEnd ≤ other.vmStart := by
    unfold Apart at apart
    omega
  rw [max_eq_right later, max_eq_right (by omega)]

theorem checkLoop_iff (finish : Nat) (write : Bool) (turns : Nat) (wellformed : Wellformed mm) (enough : finish - start < turns) :
    ∃ after ok, checkLoop finish write turns mm start = some (after, ok) ∧ Looked mm after ∧
      (ok ↔ ∀ byte, start ≤ byte → byte < finish → Permitted mm write start byte) := by
  induction turns generalizing mm start with
  | zero => omega
  | succ turns ih =>
    rw [checkLoop]
    by_cases inside : start < finish
    · rw [if_pos inside]
      by_cases held : ∃ vma ∈ mm.mmapList, vma.holds start
      · obtain ⟨vma, member, holds⟩ := held
        obtain ⟨cached, found, looked⟩ := findVma_some wellformed member holds
        obtain ⟨low, high⟩ := holds_iff.mp holds
        have only : Permitted mm write start start → vma.grants write ∧
            (write → vma.vmFlags.stack → vma.vmStart + pgsize ≤ start) := by
          rintro ⟨other, others, otherHolds, grants, guard⟩
          cases wellformed.unique member others holds otherHolds
          rw [max_eq_left low] at guard
          exact ⟨grants, guard⟩
        simp only [found]
        rw [if_neg (by omega)]
        by_cases grants : vma.grants write
        · rw [if_neg (by simp [grants])]
          by_cases guard : write → vma.vmFlags.stack → vma.vmStart + pgsize ≤ start
          · rw [if_neg (by simpa using guard)]
            have enough : finish - vma.vmEnd < turns := by omega
            obtain ⟨after, ok, ran, kept, all⟩ := ih looked.wellformed enough
            refine ⟨after, ok, ran, looked.trans kept, all.trans ⟨fun rest byte above below => ?_,
              fun rest byte above below => ?_⟩⟩
            · by_cases behind : vma.vmEnd ≤ byte
              · exact (permitted_behind wellformed member holds behind).mp
                  (looked.permitted.mp (rest byte behind below))
              · refine ⟨vma, member, holds_iff.mpr ⟨by omega, by omega⟩, grants, ?_⟩
                rwa [max_eq_left low]
            · exact looked.permitted.mpr
                ((permitted_behind wellformed member holds above).mpr (rest byte (by omega) below))
          · rw [if_pos (by simpa [and_assoc] using guard)]
            exact ⟨cached, false, rfl, looked, by simp, fun all =>
              absurd (only (all start le_rfl inside)).2 guard⟩
        · rw [if_pos (by simp [grants])]
          exact ⟨cached, false, rfl, looked, by simp, fun all =>
            absurd (only (all start le_rfl inside)).1 grants⟩
      · have nobody : ∀ vma ∈ mm.mmapList, ¬vma.holds start := by simpa using held
        simp only [findVma_none wellformed nobody]
        refine ⟨mm, false, rfl, ⟨wellformed, rfl⟩, by simp, fun all => ?_⟩
        obtain ⟨vma, member, holds, -⟩ := all start le_rfl inside
        exact absurd holds (nobody vma member)
    · rw [if_neg inside]
      exact ⟨mm, true, rfl, ⟨wellformed, rfl⟩, fun _ byte low high => by omega, fun _ => rfl⟩

theorem userAccess_iff (addr : Nat) {len : Nat} (small : len < 2 ^ 64) :
    userAccess addr (word (addr + len)) ↔ 0 < len ∧ userbase ≤ addr ∧ addr + len ≤ usertop := by
  simp only [userAccess, Bool.and_eq_true, decide_eq_true_eq]
  unfold word userbase usertop
  omega

/-- Every byte of the range exists and may be accessed. -/
def Accessible (mm : Mm) (addr len : Nat) (write : Bool) : Prop :=
  0 < len ∧ userbase ≤ addr ∧ addr + len ≤ usertop ∧
    ∀ byte, addr ≤ byte → byte < addr + len → Permitted mm write addr byte

theorem userMemCheck_iff (addr : Nat) {len : Nat} (write : Bool) (wellformed : Wellformed mm) (small : len < 2 ^ 64) :
    ∃ after ok, userMemCheck (some mm) addr len write = some (some after, ok) ∧ Looked mm after ∧
      (ok ↔ Accessible mm addr len write) := by
  have access := userAccess_iff addr small
  by_cases inside : userAccess addr (word (addr + len))
  · obtain ⟨positive, low, high⟩ := access.mp inside
    have unwrapped : word (addr + len) = addr + len := by
      unfold word usertop at *
      omega
    have enough : addr + len - addr < len + 1 := by omega
    obtain ⟨after, ok, ran, looked, all⟩ := checkLoop_iff (addr + len) write (len + 1) wellformed enough
    refine ⟨after, ok, ?_, looked,
      all.trans ⟨fun every => ⟨positive, low, high, every⟩, fun every => every.2.2.2⟩⟩
    rw [unwrapped] at inside
    simp [userMemCheck, inside, unwrapped, ran]
  · refine ⟨mm, false, by simp [userMemCheck, inside], ⟨wellformed, rfl⟩, by simp, fun every => ?_⟩
    exact absurd (access.mpr ⟨every.1, every.2.1, every.2.2.1⟩) inside

/-! ## Strings -/

variable {bytes dst : Nat → Nat} {src part maxn pos len : Nat}

/-- The address space of a process with a wellformed mm, or of the kernel. -/
def Sound (space : Option Mm) : Prop := ∀ mm, space = some mm → Wellformed mm

/-- A check on an address space changes no more than a cache. -/
inductive Checked : Option Mm → Option Mm → Prop
  | user {mm after : Mm} (looked : Looked mm after) : Checked (some mm) (some after)
  | kernel : Checked none none

variable {space later : Option Mm}

theorem Checked.sound (checked : Checked space later) : Sound later := by
  cases checked with
  | user looked =>
    rintro mm ⟨⟩
    exact looked.wellformed
  | kernel => simp [Sound]

theorem Checked.trans {third : Option Mm} (first : Checked space later) (second : Checked later third) :
    Checked space third := by
  cases first with
  | user looked =>
    cases second with
    | user next => exact .user (looked.trans next)
  | kernel => exact second

theorem Checked.readable (checked : Checked space later) :
    UserMem.readable later addr = UserMem.readable space addr := by
  cases checked with
  | user looked => simp only [UserMem.readable, looked.mmapList]
  | kernel => rfl

theorem readable_small (reads : readable space addr) : addr + 1 < 2 ^ 64 := by
  cases space with
  | some mm =>
    simp only [readable, Bool.and_eq_true, decide_eq_true_eq] at reads
    have top : usertop + 1 < 2 ^ 64 := by decide
    omega
  | none =>
    simp only [readable, Bool.and_eq_true, decide_eq_true_eq] at reads
    have top : kerntop + 1 < 2 ^ 64 := by decide
    omega

theorem readable_iff (src : Nat) : readable (some mm) addr ↔
    userbase ≤ addr ∧ addr < usertop ∧ Permitted mm false src addr := by
  simp [readable, Permitted, and_assoc]

/-- A page lies in one vma or in none. -/
theorem readable_page (sound : Sound space) (within : addr % pgsize + len < pgsize) :
    readable space (addr + len) ↔ readable space addr := by
  cases space with
  | some mm =>
    have move : ∀ vma ∈ mm.mmapList, (vma.holds (addr + len) ↔ vma.holds addr) := by
      intro vma member
      have aligned := (sound mm rfl).aligned vma member
      rw [holds_iff, holds_iff]
      unfold pgsize at *
      omega
    simp only [readable, Bool.and_eq_true, decide_eq_true_eq, List.any_eq_true]
    refine and_congr ?_
      (exists_congr fun vma => and_congr_right fun member => and_congr_left fun _ => move vma member)
    unfold userbase usertop pgsize at *
    omega
  | none =>
    simp only [readable, Bool.and_eq_true, decide_eq_true_eq]
    unfold kerntop kernbase pgsize at *
    omega

/-- A check lets a range through. -/
def Grants (space : Option Mm) (addr len : Nat) (write : Bool) : Prop :=
  match space with
  | some mm => Accessible mm addr len write
  | none => kernAccess addr (word (addr + len)) = true

theorem check_grants (addr : Nat) (write : Bool) (sound : Sound space) (small : len < 2 ^ 64) :
    ∃ later ok, userMemCheck space addr len write = some (later, ok) ∧ Checked space later ∧
      (ok ↔ Grants space addr len write) := by
  cases space with
  | some mm =>
    obtain ⟨after, ok, ran, looked, all⟩ := userMemCheck_iff addr write (sound mm rfl) small
    exact ⟨some after, ok, ran, .user looked, all⟩
  | none => exact ⟨none, _, rfl, .kernel, Iff.rfl⟩

theorem Checked.grants (checked : Checked space later) :
    Grants later addr len write ↔ Grants space addr len write := by
  cases checked with
  | user looked => simp only [Grants, Accessible, looked.permitted]
  | kernel => rfl

/-- Where a check lets a read through, every byte of the range can be loaded. -/
theorem Grants.readable (grants : Grants space addr len false) (small : len < 2 ^ 64) :
    ∀ i < len, readable space (addr + i) := by
  intro i below
  cases space with
  | some mm =>
    obtain ⟨-, low, high, every⟩ := grants
    exact (readable_iff addr).mpr ⟨by omega, by omega, every (addr + i) (by omega) (by omega)⟩
  | none =>
    simp only [Grants, kernAccess, Bool.and_eq_true, decide_eq_true_eq] at grants
    simp only [UserMem.readable, Bool.and_eq_true, decide_eq_true_eq]
    unfold word kerntop kernbase at *
    omega

theorem check_range (sound : Sound space) (small : len < 2 ^ 64) :
    ∃ later ok, userMemCheck space addr len false = some (later, ok) ∧ Checked space later ∧
      (ok → ∀ i < len, readable space (addr + i)) := by
  obtain ⟨later, ok, ran, checked, grants⟩ := check_grants addr false sound small
  exact ⟨later, ok, ran, checked, fun done => (grants.mp done).readable small⟩

theorem check_page (sound : Sound space) (positive : 0 < part)
    (within : src % pgsize + part ≤ pgsize) :
    ∃ later ok, userMemCheck space src part false = some (later, ok) ∧ Checked space later ∧
      (ok ↔ readable space src) := by
  have small : part < 2 ^ 64 := by
    unfold pgsize at within
    omega
  cases space with
  | some mm =>
    obtain ⟨after, ok, ran, looked, all⟩ := userMemCheck_iff src false (sound mm rfl) small
    refine ⟨some after, ok, ran, .user looked, all.trans ⟨fun every => ?_, fun reads => ?_⟩⟩
    · obtain ⟨-, low, high, every⟩ := every
      exact (readable_iff src).mpr ⟨low, by omega, every src le_rfl (by omega)⟩
    · obtain ⟨low, high, -⟩ := (readable_iff src).mp reads
      refine ⟨positive, low, ?_, fun byte above below => ?_⟩
      · unfold usertop pgsize at *
        omega
      · have inPage : src % pgsize + (byte - src) < pgsize := by omega
        have same := readable_page sound inPage
        rw [Nat.add_sub_cancel' above] at same
        exact ((readable_iff src).mp (same.mpr reads)).2.2
  | none =>
    refine ⟨none, _, rfl, .kernel, ?_⟩
    simp only [kernAccess, readable, Bool.and_eq_true, decide_eq_true_eq]
    unfold word kerntop kernbase pgsize at *
    omega

theorem strnlen_returns {fetch : Nat → Option Nat}
    (fetched : ∀ i < len, fetch (src + i) = some (bytes (src + i))) (small : src + len < 2 ^ 64) :
    ∃ alen ≤ len, strnlen fetch src len = some alen ∧ (∀ i < alen, bytes (src + i) ≠ 0) ∧
      (alen < len → bytes (src + alen) = 0) := by
  induction len generalizing src with
  | zero => exact ⟨0, le_rfl, rfl, by simp, by simp⟩
  | succ len ih =>
    have first := fetched 0 (by omega)
    rw [Nat.add_zero] at first
    rw [strnlen, first]
    by_cases nul : bytes src = 0
    · exact ⟨0, by omega, by simp [nul], by simp, fun _ => nul⟩
    · have onward : word (src + 1) = src + 1 := Nat.mod_eq_of_lt (by omega)
      have fetched : ∀ i < len, fetch (src + 1 + i) = some (bytes (src + 1 + i)) := by
        intro i below
        rw [Nat.add_right_comm, Nat.add_assoc]
        exact fetched (i + 1) (by omega)
      obtain ⟨alen, short, ran, others, stop⟩ := ih fetched (by omega)
      refine ⟨alen + 1, by omega, by simp [nul, onward, ran], fun i below => ?_, fun less => ?_⟩
      · cases i with
        | zero => exact nul
        | succ i =>
          have other := others i (by omega)
          rwa [Nat.add_right_comm, Nat.add_assoc] at other
      · have found := stop (by omega)
        rwa [Nat.add_right_comm, Nat.add_assoc] at found

theorem memcpy_returns (dst : Nat → Nat) (pos : Nat) {fetch : Nat → Option Nat}
    (fetched : ∀ i < len, fetch (src + i) = some (bytes (src + i))) (small : src + len < 2 ^ 64) :
    ∃ copied, memcpy fetch dst pos src len = some copied ∧
      (∀ i < len, copied (pos + i) = bytes (src + i)) ∧
      ∀ other, other < pos ∨ pos + len ≤ other → copied other = dst other := by
  induction len generalizing src dst pos with
  | zero => exact ⟨dst, rfl, by simp, fun _ _ => rfl⟩
  | succ len ih =>
    have first := fetched 0 (by omega)
    rw [Nat.add_zero] at first
    have onward : word (src + 1) = src + 1 := Nat.mod_eq_of_lt (by omega)
    have fetched : ∀ i < len, fetch (src + 1 + i) = some (bytes (src + 1 + i)) := by
      intro i below
      rw [Nat.add_right_comm, Nat.add_assoc]
      exact fetched (i + 1) (by omega)
    obtain ⟨copied, ran, inside, outside⟩ := ih (Function.update dst pos (bytes src)) (pos + 1) fetched
      (by omega)
    refine ⟨copied, by simp [memcpy, first, onward, ran], fun i below => ?_, fun other apart => ?_⟩
    · cases i with
      | zero => rw [Nat.add_zero, Nat.add_zero, outside pos (by omega), Function.update_self]
      | succ i =>
        have same := inside i (by omega)
        rwa [Nat.add_right_comm, Nat.add_assoc, Nat.add_right_comm src, Nat.add_assoc src] at same
    · rw [outside other (by omega), Function.update_of_ne (by omega)]

/-- A string of `n` characters that may be read. -/
structure StringAt (space : Option Mm) (bytes : Nat → Nat) (src n : Nat) : Prop where
  nul : bytes (src + n) = 0
  characters : ∀ i < n, bytes (src + i) ≠ 0
  readable : ∀ i ≤ n, readable space (src + i)

/-- A string behind the first `part` bytes, none of which is its end. -/
theorem StringAt.prepend {n : Nat} (rest : StringAt later bytes (src + part) n) (checked : Checked space later)
    (others : ∀ i < part, bytes (src + i) ≠ 0)
    (reads : ∀ i < part, UserMem.readable space (src + i)) : StringAt space bytes src (part + n) := by
  have split : ∀ i, part ≤ i → src + i = src + part + (i - part) := by omega
  refine ⟨by rw [← Nat.add_assoc]; exact rest.nul, fun i below => ?_, fun i below => ?_⟩
  · by_cases here : i < part
    · exact others i here
    · rw [split i (by omega)]
      exact rest.characters (i - part) (by omega)
  · by_cases here : i < part
    · exact reads i here
    · rw [split i (by omega), ← checked.readable]
      exact rest.readable (i - part) (by omega)

/-- What the loop leaves behind, from the byte `pos` of the buffer on. -/
structure Copied (space : Option Mm) (bytes dst : Nat → Nat) (pos src maxn : Nat) (copied : Nat → Nat)
    (ok : Bool) : Prop where
  string : ok → ∃ n < maxn, StringAt space bytes src n ∧
    (∀ i ≤ n, copied (pos + i) = bytes (src + i)) ∧ ∀ other, pos + n < other → copied other = dst other
  found : (∃ n < maxn, bytes (src + n) = 0 ∧ ∀ i ≤ n, UserMem.readable space (src + i)) → ok
  outside : ∀ other, other < pos ∨ pos + maxn ≤ other → copied other = dst other

/-- A page without the end of the string comes before the rest of it. -/
theorem Copied.prepend {copied final : Nat → Nat} {ok : Bool} (checked : Checked space later)
    (rest : Copied later bytes copied (pos + part) (src + part) maxn final ok)
    (others : ∀ i < part, bytes (src + i) ≠ 0)
    (reads : ∀ i < part, UserMem.readable space (src + i))
    (inside : ∀ i < part, copied (pos + i) = bytes (src + i))
    (outside : ∀ other, other < pos ∨ pos + part ≤ other → copied other = dst other) :
    Copied space bytes dst pos src (part + maxn) final ok where
  string done := by
    obtain ⟨n, below, string, same, beyond⟩ := rest.string done
    refine ⟨part + n, by omega, string.prepend checked others reads, fun i within => ?_, fun other above => ?_⟩
    · by_cases here : i < part
      · rw [rest.outside _ (by omega), inside i here]
      · have moved := same (i - part) (by omega)
        rwa [show pos + part + (i - part) = pos + i by omega,
          show src + part + (i - part) = src + i by omega] at moved
    · rw [beyond other (by omega), outside other (by omega)]
  found := by
    rintro ⟨n, below, nul, readsAll⟩
    have behind : part ≤ n := not_lt.mp fun here => others n here nul
    refine rest.found ⟨n - part, by omega, ?_, fun i within => ?_⟩
    · rwa [show src + part + (n - part) = src + n by omega]
    · rw [checked.readable, show src + part + i = src + (part + i) by omega]
      exact readsAll (part + i) (by omega)
  outside other apart := by
    rw [rest.outside other (by omega), outside other (by omega)]

/-- The loop comes to the byte `pos` of the buffer with `src` somewhere in a page
and `part` up to its end. -/
theorem copyStringLoop_returns (turns : Nat) (sound : Sound space) (positive : 0 < maxn)
    (enough : maxn < turns) (toEnd : part = pgsize - src % pgsize) :
    ∃ later copied ok,
      copyStringLoop bytes turns space dst pos src part maxn = some (later, copied, ok) ∧
      Checked space later ∧ Copied space bytes dst pos src maxn copied ok := by
  induction turns generalizing space dst pos src part maxn with
  | zero => omega
  | succ turns ih =>
    obtain ⟨size, sizeEq⟩ : ∃ size, size = if maxn < part then maxn else part := ⟨_, rfl⟩
    have page : 0 < pgsize := by decide
    have inPage : src % pgsize < pgsize := Nat.mod_lt _ page
    have bounds : 0 < size ∧ size ≤ maxn ∧ src % pgsize + size ≤ pgsize ∧ (size ≠ maxn → size = part) := by
      split_ifs at sizeEq <;> omega
    obtain ⟨between, ok, ran, checked, all⟩ := check_page sound bounds.1 bounds.2.2.1
    rw [copyStringLoop, ← sizeEq, ran]
    cases ok with
    | false =>
      refine ⟨between, dst, false, rfl, checked, by simp, ?_, fun _ _ => rfl⟩
      rintro ⟨n, -, -, reads⟩
      exact all.mpr (reads 0 (Nat.zero_le n))
    | true =>
      have reads : ∀ i < size, UserMem.readable space (src + i) := fun i below =>
        (readable_page sound (by omega)).mpr (all.mp rfl)
      have small : src + size < 2 ^ 64 := by
        have last := readable_small (reads (size - 1) (by omega))
        omega
      have fetched : ∀ i < size, loadByte between bytes src size (src + i) = some (bytes (src + i)) := by
        intro i below
        have read : UserMem.readable between (src + i) := by
          rw [checked.readable]
          exact reads i below
        simp [loadByte, read, below]
      obtain ⟨alen, short, counted, others, nul⟩ := strnlen_returns fetched small
      simp only [Bool.not_true, Bool.false_eq_true, if_false, counted, Option.bind_eq_bind, Option.bind_some]
      by_cases ends : alen < size
      · obtain ⟨copied, wrote, inside, outside⟩ := memcpy_returns dst pos
          (fun i (below : i < alen + 1) => fetched i (by omega)) (by omega)
        rw [if_pos ends, wrote]
        refine ⟨between, copied, true, rfl, checked, fun _ => ⟨alen, by omega,
          ⟨nul ends, others, fun i below => reads i (by omega)⟩,
          fun i below => inside i (by omega), fun other above => outside other (by omega)⟩, fun _ => rfl,
          fun other apart => outside other (by omega)⟩
      · have full : alen = size := by omega
        subst full
        rw [if_neg ends]
        by_cases last : alen = maxn
        · rw [if_pos last]
          refine ⟨between, dst, false, rfl, checked, by simp, ?_, fun _ _ => rfl⟩
          rintro ⟨n, below, found, -⟩
          exact absurd found (others n (by omega))
        · obtain ⟨copied, wrote, inside, outside⟩ := memcpy_returns dst pos fetched small
          rw [if_neg last, wrote]
          have whole : (src + alen) % pgsize = 0 := by
            have := bounds.2.2.2 last
            unfold pgsize at *
            omega
          have onward : word (src + alen) = src + alen := Nat.mod_eq_of_lt small
          obtain ⟨later, final, ok, again, keeps, rest⟩ : ∃ later final ok,
              copyStringLoop bytes turns between copied (pos + alen) (src + alen) pgsize
                (maxn - alen) = some (later, final, ok) ∧ Checked between later ∧
              Copied between bytes copied (pos + alen) (src + alen) (maxn - alen) final ok :=
            ih checked.sound (by omega) (by omega) (by rw [whole, Nat.sub_zero])
          have all := rest.prepend checked others reads inside outside
          rw [Nat.add_sub_cancel' bounds.2.1] at all
          exact ⟨later, final, ok, by simpa [onward] using again, checked.trans keeps, all⟩

/-- The first part goes up to the end of the page, also at the top of the addresses. -/
theorem first_part (small : src < 2 ^ 64) :
    word (rounddown (word (src + pgsize)) pgsize + 2 ^ 64 - src) = pgsize - src % pgsize := by
  unfold word rounddown pgsize
  omega

theorem copyString_returns (sound : Sound space) (bytes dst : Nat → Nat) (positive : 1 ≤ maxn)
    (source : src < 2 ^ 64) :
    ∃ later copied ok, copyString space bytes dst src maxn = some (later, copied, ok) ∧
      Checked space later ∧ Copied space bytes dst 0 src maxn copied ok :=
  copyStringLoop_returns (maxn + 1) sound positive (by omega) (first_part source)

/-- `user_mem_check` permits exactly the ranges whose bytes may all be accessed;
`copy_string` copies exactly the strings that can be read within `maxn` bytes. It
loads nothing it has not checked and writes nothing behind `maxn`. -/
theorem user_memory_checked (wellformed : Wellformed mm) (small : len < 2 ^ 64)
    (source : src < 2 ^ 64) (positive : 1 ≤ maxn) :
    (∃ after ok, userMemCheck (some mm) addr len write = some (some after, ok) ∧ Looked mm after ∧
      (ok ↔ Accessible mm addr len write)) ∧
    ∃ after copied ok, copyString (some mm) bytes dst src maxn = some (some after, copied, ok) ∧
      Looked mm after ∧
      (ok ↔ ∃ n < maxn, bytes (src + n) = 0 ∧ ∀ i ≤ n, readable (some mm) (src + i)) ∧
      (ok → ∃ n < maxn, StringAt (some mm) bytes src n ∧
        ∀ pos, copied pos = if pos ≤ n then bytes (src + pos) else dst pos) ∧
      ∀ pos, maxn ≤ pos → copied pos = dst pos := by
  refine ⟨userMemCheck_iff addr write wellformed small, ?_⟩
  have sound : Sound (some mm) := by
    rintro user ⟨⟩
    exact wellformed
  obtain ⟨later, copied, ok, ran, checked, all⟩ := copyString_returns sound bytes dst positive source
  cases checked with | user looked =>
  rename_i after
  refine ⟨after, copied, ok, ran, looked, ⟨fun done => ?_, all.found⟩, fun done => ?_,
    fun pos above => all.outside pos (by omega)⟩
  · obtain ⟨n, below, string, -⟩ := all.string done
    exact ⟨n, below, string.nul, string.readable⟩
  · obtain ⟨n, below, string, same, beyond⟩ := all.string done
    refine ⟨n, below, string, fun pos => ?_⟩
    split_ifs with within
    · simpa using same pos within
    · exact beyond pos (by omega)

/-- An mm with a page of code and two pages of data behind it. -/
def codeAndData : Mm :=
  ⟨[⟨0x800000, 0x801000, ⟨true, false, true, false⟩⟩, ⟨0x801000, 0x803000, ⟨true, true, false, false⟩⟩], none⟩

theorem codeAndData_wellformed : Wellformed codeAndData := by
  constructor
  · decide
  · decide
  · exact List.pairwise_pair.mpr (.inl le_rfl)
  · intro vma cached
    cases cached

/-- Every byte of the three pages can be read. -/
theorem codeAndData_readable {addr : Nat} (low : 0x800000 ≤ addr) (high : addr < 0x803000) :
    ∃ vma ∈ codeAndData.mmapList, vma.holds addr ∧ vma.grants false := by
  by_cases code : addr < 0x801000
  · exact ⟨_, List.mem_cons_self, holds_iff.mpr ⟨low, code⟩, rfl⟩
  · exact ⟨_, List.mem_cons_of_mem _ List.mem_cons_self, holds_iff.mpr ⟨not_lt.mp code, high⟩, rfl⟩

/-- The string `ls`, whose first letter is the last byte of the code. -/
def stringAcross (addr : Nat) : Nat := if addr = 0x800fff then 108 else if addr = 0x801000 then 115 else 0

/-- A range and a string that go from one vma into the next. -/
theorem user_memory_checked_across : ∃ checked after copied,
    userMemCheck (some codeAndData) 0x800ff0 32 false = some (some checked, true) ∧
      copyString (some codeAndData) stringAcross (fun _ => 7) 0x800fff 16 = some (some after, copied, true) ∧
      copied 0 = 108 ∧ copied 1 = 115 ∧ copied 2 = 0 ∧ copied 3 = 7 := by
  obtain ⟨⟨checked, ok, ran, -, all⟩, after, copied, done, copies, -, found, same, -⟩ :=
    @user_memory_checked codeAndData 0x800ff0 false stringAcross (fun _ => 7) 0x800fff 16 32
      codeAndData_wellformed (by decide) (by decide) (by decide)
  have granted : ok = true := by
    refine all.mpr ⟨by decide, by decide, by decide, fun byte low high => ?_⟩
    obtain ⟨vma, member, holds, grants⟩ := codeAndData_readable (by omega : 0x800000 ≤ byte) (by omega)
    exact ⟨vma, member, holds, grants, fun writes => absurd writes Bool.false_ne_true⟩
  have string : done = true := by
    have reads : ∀ i ≤ 2, readable (some codeAndData) (0x800fff + i) = true := by decide
    exact found.mpr ⟨2, by decide, by decide, reads⟩
  obtain ⟨n, -, text, copied_all⟩ := same string
  have length : n = 2 := by
    rcases Nat.lt_trichotomy n 2 with short | exactly | long
    · have letters : ∀ i < 2, stringAcross (0x800fff + i) ≠ 0 := by decide
      exact absurd text.nul (letters n short)
    · exact exactly
    · exact absurd (by decide) (text.characters 2 long)
  subst length granted string
  exact ⟨checked, after, copied, ran, copies, copied_all 0, copied_all 1, copied_all 2, copied_all 3⟩

end Ucore.UserMemProofs
