import Ucore.Kmonitor

/-! The monitor splits a line into its words in place. It gets along with lines of at most
`MAXARGS` words, and with no others: the check in front of `argv` only prints. -/
namespace Ucore.Kmonitor
open Call

/-! ## Words of a list -/

section
variable {α : Type} {p : α → Bool} {a : α} {word rest : List α}

/-- The maximal parts of a list without a separator. -/
def words (p : α → Bool) (list : List α) : List (List α) := (list.splitOnP p).filter fun word => !word.isEmpty

@[simp] theorem words_nil : words p [] = [] := rfl

theorem words_separator (separates : p a) (list : List α) : words p (a :: list) = words p list := by
  rw [words, List.splitOnP_cons_eq_if_modifyHead, if_pos separates]
  rfl

theorem words_append (some : word ≠ []) (free : ∀ x ∈ word, p x = false) (behind : ∀ b ∈ rest.head?, p b) :
    words p (word ++ rest) = word :: words p rest := by
  have kept : (!word.isEmpty) = true := by
    rw [Bool.not_eq_true', List.isEmpty_eq_false_iff]
    exact some
  cases rest with
  | nil =>
    rw [List.append_nil, words, List.splitOnP_eq_singleton free, List.filter_cons, kept]
    rfl
  | cons b rest =>
    have separates : p b := behind b rfl
    rw [words_separator separates, words, List.splitOnP_append_cons_of_forall_mem free b separates, List.filter_cons, kept]
    rfl

theorem words_dropWhile (list : List α) : words p (list.dropWhile p) = words p list := by
  induction list with
  | nil => rfl
  | cons a list ih =>
    rw [List.dropWhile_cons]
    split
    · rw [ih, words_separator ‹_›]
    · rfl

/-- Where a list begins with a word, it goes on behind it. -/
theorem words_begin {list : List α} (some : list ≠ []) (begins : ∀ b ∈ list.head?, p b = false) :
    words p list = list.takeWhile (fun x => !p x) :: words p (list.dropWhile fun x => !p x) := by
  have apart : list.takeWhile (fun x => !p x) ++ list.dropWhile (fun x => !p x) = list := List.takeWhile_append_dropWhile
  conv_lhs => rw [← apart]
  apply words_append
  · cases list with
    | nil => exact absurd rfl some
    | cons a list =>
      have free : p a = false := begins a rfl
      rw [List.takeWhile_cons, free]
      exact List.cons_ne_nil _ _
  · intro x member
    have free := List.mem_takeWhile_imp member
    rwa [Bool.not_eq_true'] at free
  · intro b head
    have stops := List.head?_dropWhile_not (fun x => !p x) list
    rw [Option.mem_def.mp head] at stops
    simpa using stops

end

/-! ## Loops -/

variable {σ α β : Type} {steps rounds argc : Nat} {done left line rest : List UInt8} {argv : List (Option Nat)} {printed : List UInt8}

theorem goes_on {call : Call σ α} {next : α → Call σ β} {state after : σ} {value : α} (returns : Returns call state value after) :
    (call >>= next) state = next value after := by
  rw [Returns] at returns
  simp only [bind, returns]

/-- The first byte of what is left, or the NUL behind it. -/
theorem load_returns (done left rest : List UInt8) (argv : List (Option Nat)) (printed : List UInt8) :
    Returns (load done.length) ⟨done ++ (left ++ 0 :: rest), argv, printed⟩ (left.headD 0) ⟨done ++ (left ++ 0 :: rest), argv, printed⟩ := by
  cases left <;> simp [Returns, load, bind, pure, gets]

theorem store_returns (done left : List UInt8) (ch other : UInt8) (argv : List (Option Nat)) (printed : List UInt8) :
    Returns (store done.length ch) ⟨done ++ other :: left, argv, printed⟩ () ⟨done ++ ch :: left, argv, printed⟩ := by
  simp [Returns, store, bind, pure, gets, Call.modify, assert]

/-- White space is overwritten up to its end. -/
theorem blankLoop_returns (done rest : List UInt8) (argv : List (Option Nat)) (printed : List UInt8)
    (plain : 0 ∉ left) (enough : left.length < steps) :
    Returns (blankLoop steps done.length) ⟨done ++ (left ++ 0 :: rest), argv, printed⟩ (done.length + (left.takeWhile blank).length)
      ⟨done ++ ((left.takeWhile blank).map (fun _ => 0) ++ (left.dropWhile blank ++ 0 :: rest)), argv, printed⟩ := by
  induction left generalizing done steps with
  | nil =>
    obtain ⟨steps, rfl⟩ : ∃ more, steps = more + 1 := ⟨steps - 1, by simp at enough; omega⟩
    rw [Returns, blankLoop, goes_on (load_returns done [] rest argv printed)]
    rfl
  | cons ch left ih =>
    obtain ⟨steps, rfl⟩ : ∃ more, steps = more + 1 := ⟨steps - 1, by simp at enough; omega⟩
    have real : ch ≠ 0 := fun nul => plain (nul ▸ List.mem_cons_self)
    rw [Returns, blankLoop, goes_on (load_returns done (ch :: left) rest argv printed), List.headD_cons, List.takeWhile_cons, List.dropWhile_cons]
    cases separates : blank ch with
    | true =>
      have further := @ih steps (done ++ [0]) (fun member => plain (List.mem_cons_of_mem _ member)) (by simpa using enough)
      have condition : (decide (ch ≠ 0) && true) = true := by simp [real]
      rw [if_pos condition, List.cons_append, goes_on (store_returns done _ 0 ch argv printed)]
      rw [List.length_append, List.length_singleton, List.append_assoc, List.append_assoc] at further
      simp only [↓reduceIte, List.length_cons, List.map_cons, List.cons_append, Nat.add_comm _ 1, ← Nat.add_assoc] at further ⊢
      exact further
    | false =>
      rw [Bool.and_false, if_neg Bool.false_ne_true]
      rfl

/-- A word is passed over. -/
theorem wordLoop_returns (done rest : List UInt8) (argv : List (Option Nat)) (printed : List UInt8)
    (plain : 0 ∉ left) (enough : left.length < steps) :
    Returns (wordLoop steps done.length) ⟨done ++ (left ++ 0 :: rest), argv, printed⟩ (done.length + (left.takeWhile fun ch => !blank ch).length)
      ⟨done ++ (left ++ 0 :: rest), argv, printed⟩ := by
  induction left generalizing done steps with
  | nil =>
    obtain ⟨steps, rfl⟩ : ∃ more, steps = more + 1 := ⟨steps - 1, by simp at enough; omega⟩
    rw [Returns, wordLoop, goes_on (load_returns done [] rest argv printed)]
    rfl
  | cons ch left ih =>
    obtain ⟨steps, rfl⟩ : ∃ more, steps = more + 1 := ⟨steps - 1, by simp at enough; omega⟩
    have real : ch ≠ 0 := fun nul => plain (nul ▸ List.mem_cons_self)
    rw [Returns, wordLoop, goes_on (load_returns done (ch :: left) rest argv printed), List.headD_cons, List.takeWhile_cons]
    cases separates : blank ch with
    | true =>
      rw [Bool.not_true, Bool.and_false, if_neg Bool.false_ne_true]
      rfl
    | false =>
      have further := @ih steps (done ++ [ch]) (fun member => plain (List.mem_cons_of_mem _ member)) (by simpa using enough)
      have condition : (decide (ch ≠ 0) && !false) = true := by simp [real]
      rw [if_pos condition]
      rw [List.length_append, List.length_singleton, List.append_assoc] at further
      simp only [Bool.not_false, ↓reduceIte, List.length_cons, List.cons_append, List.nil_append, Nat.add_comm _ 1, ← Nat.add_assoc] at further ⊢
      exact further

/-! ## A line -/

/-- `argv` behind the words stored so far. -/
def slots (stored : List Nat) : List (Option Nat) := stored.map some ++ List.replicate (maxargs - stored.length) none

variable {stored pointers : List Nat} {text buf : List UInt8}

theorem storeArg_returns (room : stored.length < maxargs) (place : Nat) :
    Returns (storeArg stored.length place) ⟨buf, slots stored, printed⟩ () ⟨buf, slots (stored ++ [place]), printed⟩ := by
  have inside : stored.length < (slots stored).length := by
    rw [slots, List.length_append, List.length_map, List.length_replicate]
    omega
  have next : (slots stored).set stored.length (some place) = slots (stored ++ [place]) := by
    obtain ⟨more, same⟩ : ∃ more, maxargs - stored.length = more + 1 := ⟨maxargs - stored.length - 1, by omega⟩
    have fewer : maxargs - (stored ++ [place]).length = more := by
      rw [List.length_append, List.length_singleton]
      omega
    rw [slots, slots, same, fewer, List.replicate_succ, List.map_append, List.append_assoc]
    have here : stored.length = (stored.map some).length := List.length_map _ |>.symm
    rw [here, List.set_append_right _ _ le_rfl, Nat.sub_self]
    rfl
  rw [Returns, storeArg, goes_on (returns_gets.mpr ⟨rfl, rfl⟩), decide_eq_true inside, Call.assert, if_pos rfl]
  rw [goes_on (returns_pure.mpr ⟨rfl, rfl⟩), Call.modify, next]

/-- Behind its last slot `argv` is not stored to. -/
theorem storeArg_stops (full : stored.length = maxargs) (place : Nat) : storeArg stored.length place ⟨buf, slots stored, printed⟩ = none := by
  have outside : ¬ stored.length < (slots stored).length := by
    rw [slots, List.length_append, List.length_map, List.length_replicate]
    omega
  rw [storeArg, goes_on (returns_gets.mpr ⟨rfl, rfl⟩), decide_eq_false outside]
  rfl

/-- The word that begins at a place of the text. -/
def wordAt (text : List UInt8) (place : Nat) : List UInt8 := (text.drop place).takeWhile fun ch => !blank ch

/-- White space becomes NUL. -/
def erase (ch : UInt8) : UInt8 := if blank ch then 0 else ch

/-- What is in the buffer from a place on, up to the first NUL. -/
def stringAt (buf : List UInt8) (place : Nat) : List UInt8 := (buf.drop place).takeWhile fun ch => ch ≠ 0

/-- Every word is terminated where it stands. -/
theorem stringAt_erased (plain : 0 ∉ text) (place : Nat) (inside : place ≤ text.length) :
    stringAt (text.map erase ++ 0 :: rest) place = wordAt text place := by
  rw [stringAt, wordAt, List.drop_append_of_le_length (by rwa [List.length_map]), ← List.map_drop]
  have plain' : 0 ∉ text.drop place := fun member => plain (List.mem_of_mem_drop member)
  generalize text.drop place = left at plain'
  induction left with
  | nil => rfl
  | cons ch left ih =>
    have real : ch ≠ 0 := fun nul => plain' (nul ▸ List.mem_cons_self)
    rw [List.map_cons, List.cons_append, List.takeWhile_cons, List.takeWhile_cons, ih fun member => plain' (List.mem_cons_of_mem _ member), erase]
    cases blank ch <;> simp [real]

theorem map_erase_blanks (left : List UInt8) : (left.takeWhile blank).map erase = (left.takeWhile blank).map fun _ => 0 := by
  apply List.map_congr_left
  intro ch member
  rw [erase, if_pos (List.mem_takeWhile_imp member)]

theorem map_erase_word (left : List UInt8) : (left.takeWhile fun ch => !blank ch).map erase = left.takeWhile fun ch => !blank ch := by
  rw [List.map_congr_left (g := id), List.map_id]
  intro ch member
  have free := List.mem_takeWhile_imp member
  rw [Bool.not_eq_true'] at free
  rw [erase, free]
  rfl

/-! ## Rounds -/

/-- What the next round leaves behind itself: the white space it erases and the word it passes over. -/
def passed (left : List UInt8) : List UInt8 :=
  (left.takeWhile blank).map erase ++ ((left.dropWhile blank).takeWhile fun ch => !blank ch)

/-- What it leaves for the rounds to come. -/
def remaining (left : List UInt8) : List UInt8 := (left.dropWhile blank).dropWhile fun ch => !blank ch

theorem erased_passed (left : List UInt8) : left.map erase = passed left ++ (remaining left).map erase := by
  have apart := congrArg (List.map erase) (List.takeWhile_append_dropWhile (p := blank) (l := left))
  have behind := congrArg (List.map erase) (List.takeWhile_append_dropWhile (p := fun ch => !blank ch) (l := left.dropWhile blank))
  rw [List.map_append] at apart behind
  rw [passed, remaining, List.append_assoc, ← apart, ← behind, map_erase_word]

/-- The rounds end where no word is left. -/
theorem parseLoop_end (plain : 0 ∉ left) (enough : left.length < steps) (ended : left.dropWhile blank = []) :
    Returns (parseLoop steps (rounds + 1) done.length argc) ⟨done ++ (left ++ 0 :: rest), argv, printed⟩ argc
      ⟨done ++ (left.map erase ++ 0 :: rest), argv, printed⟩ := by
  have blanks := blankLoop_returns done rest argv printed plain enough
  have all : left.takeWhile blank = left := by
    have apart := List.takeWhile_append_dropWhile (p := blank) (l := left)
    rwa [ended, List.append_nil] at apart
  rw [ended, List.nil_append, ← map_erase_blanks, all] at blanks
  have nul := load_returns (done ++ left.map erase) [] rest argv printed
  rw [List.length_append, List.length_map, List.append_assoc, List.nil_append] at nul
  rw [Returns, parseLoop, goes_on blanks, goes_on nul]
  rfl

theorem announce_returns (condition : Bool) (text : List UInt8) (buf : List UInt8) (argv : List (Option Nat)) (printed : List UInt8) :
    ∃ printed', Returns (onlyIf condition (cprintf text)) ⟨buf, argv, printed⟩ () ⟨buf, argv, printed'⟩ := by
  cases condition with
  | true => exact ⟨printed ++ text, rfl⟩
  | false => exact ⟨printed, rfl⟩

/-- A round that finds a word comes to the point where it is to be stored. -/
theorem parseLoop_finds (rounds argc : Nat) (done rest : List UInt8) (argv : List (Option Nat)) (printed : List UInt8)
    (plain : 0 ∉ left) (enough : left.length < steps) (more : left.dropWhile blank ≠ []) :
    ∃ printed', parseLoop steps (rounds + 1) done.length argc ⟨done ++ (left ++ 0 :: rest), argv, printed⟩ =
      (do storeArg argc (done.length + (left.takeWhile blank).length)
          let buf ← wordLoop steps (done.length + (left.takeWhile blank).length)
          parseLoop steps rounds buf (argc + 1))
        ⟨done ++ (left.takeWhile blank).map erase ++ (left.dropWhile blank ++ 0 :: rest), argv, printed'⟩ := by
  have blanks := blankLoop_returns done rest argv printed plain enough
  rw [← map_erase_blanks, ← List.append_assoc done ((left.takeWhile blank).map erase)] at blanks
  have begins := load_returns (done ++ (left.takeWhile blank).map erase) (left.dropWhile blank) rest argv printed
  rw [List.length_append, List.length_map] at begins
  have real : ¬ (left.dropWhile blank).headD 0 = 0 := by
    intro nul
    have inside : ∀ ch ∈ left.dropWhile blank, ch ≠ 0 := by
      rintro ch member rfl
      exact plain ((List.dropWhile_suffix blank).mem member)
    cases same : left.dropWhile blank with
    | nil => exact more same
    | cons ch others =>
      rw [same] at nul inside
      exact inside ch List.mem_cons_self nul
  obtain ⟨printed', announced⟩ := announce_returns (argc = maxargs - 1) tooMany
    (done ++ (left.takeWhile blank).map erase ++ (left.dropWhile blank ++ 0 :: rest)) argv printed
  refine ⟨printed', ?_⟩
  rw [parseLoop, goes_on blanks, goes_on begins, if_neg real, goes_on announced]

/-- A round with room for its word. -/
theorem parseLoop_round (plain : 0 ∉ left) (enough : left.length < steps) (more : left.dropWhile blank ≠ []) (room : stored.length < maxargs) :
    ∃ printed', parseLoop steps (rounds + 1) done.length stored.length ⟨done ++ (left ++ 0 :: rest), slots stored, printed⟩ =
      parseLoop steps rounds (done ++ passed left).length (stored ++ [done.length + (left.takeWhile blank).length]).length
        ⟨done ++ passed left ++ (remaining left ++ 0 :: rest), slots (stored ++ [done.length + (left.takeWhile blank).length]), printed'⟩ := by
  obtain ⟨printed', found⟩ := parseLoop_finds rounds stored.length done rest (slots stored) printed plain enough more
  refine ⟨printed', ?_⟩
  have behind : 0 ∉ left.dropWhile blank := fun member => plain ((List.dropWhile_suffix blank).mem member)
  have shorter : (left.dropWhile blank).length < steps := ((List.dropWhile_suffix blank).length_le).trans_lt enough
  have word := wordLoop_returns (done ++ (left.takeWhile blank).map erase) rest
    (slots (stored ++ [done.length + (left.takeWhile blank).length])) printed' behind shorter
  rw [List.length_append, List.length_map] at word
  rw [found, goes_on (storeArg_returns room _), goes_on word]
  have apart : (left.dropWhile blank).takeWhile (fun ch => !blank ch) ++ remaining left = left.dropWhile blank := List.takeWhile_append_dropWhile
  have place : (done ++ passed left).length =
      done.length + (left.takeWhile blank).length + ((left.dropWhile blank).takeWhile fun ch => !blank ch).length := by
    simp only [passed, List.length_append, List.length_map, Nat.add_assoc]
  have content : done ++ passed left ++ (remaining left ++ 0 :: rest) =
      done ++ (left.takeWhile blank).map erase ++ (left.dropWhile blank ++ 0 :: rest) := by
    simp only [passed, List.append_assoc]
    rw [← List.append_assoc (List.takeWhile _ _) (remaining left), apart]
  rw [place, content, List.length_append, List.length_singleton]

/-- A round without room for its word. -/
theorem parseLoop_stops (plain : 0 ∉ left) (enough : left.length < steps) (more : left.dropWhile blank ≠ []) (full : stored.length = maxargs) :
    parseLoop steps (rounds + 1) done.length stored.length ⟨done ++ (left ++ 0 :: rest), slots stored, printed⟩ = none := by
  obtain ⟨printed', found⟩ := parseLoop_finds rounds stored.length done rest (slots stored) printed plain enough more
  rw [found]
  exact stops_bind.mpr (.inl (storeArg_stops full _))

theorem begins_word (left : List UInt8) : ∀ ch ∈ (left.dropWhile blank).head?, blank ch = false := by
  intro ch head
  have stops := List.head?_dropWhile_not blank left
  rw [Option.mem_def.mp head] at stops
  simpa using stops

theorem words_left (left : List UInt8) (more : left.dropWhile blank ≠ []) :
    words blank left = ((left.dropWhile blank).takeWhile fun ch => !blank ch) :: words blank (remaining left) := by
  rw [← words_dropWhile left, remaining]
  apply words_begin more
  exact begins_word left

/-- What is passed over and what is left make up the text. -/
theorem drop_passed (left : List UInt8) : left.drop (passed left).length = remaining left ∧ (passed left).length + (remaining left).length = left.length := by
  have blanks : left.takeWhile blank ++ left.dropWhile blank = left := List.takeWhile_append_dropWhile
  have word : (left.dropWhile blank).takeWhile (fun ch => !blank ch) ++ remaining left = left.dropWhile blank := List.takeWhile_append_dropWhile
  rw [← word, ← List.append_assoc] at blanks
  have length : (passed left).length = (left.takeWhile blank ++ (left.dropWhile blank).takeWhile fun ch => !blank ch).length := by
    simp only [passed, List.length_append, List.length_map]
  constructor
  · rw [length]
    calc left.drop _ = (left.takeWhile blank ++ (left.dropWhile blank).takeWhile (fun ch => !blank ch) ++ remaining left).drop _ := by rw [blanks]
      _ = remaining left := List.drop_left
  · rw [length, ← List.length_append, blanks]

/-- A round passes over its word. -/
theorem passed_word (left : List UInt8) (more : left.dropWhile blank ≠ []) : (left.takeWhile blank).length < (passed left).length := by
  rw [passed, List.length_append, List.length_map]
  apply Nat.lt_add_of_pos_right
  have begins := begins_word left
  cases same : left.dropWhile blank with
  | nil => exact absurd same more
  | cons ch others =>
    rw [same] at begins
    rw [List.takeWhile_cons, begins ch rfl]
    exact Nat.succ_pos _

/-- The places are those of words, in their order. -/
structure Marks (text : List UInt8) (low : Nat) (left : List UInt8) (pointers : List Nat) : Prop where
  sorted : pointers.Pairwise (· < ·)
  above : ∀ place ∈ pointers, low ≤ place ∧ place < text.length
  found : pointers.map (wordAt text) = words blank left

theorem Marks.cons {low : Nat} (here : text.drop low = left) (inside : low + left.length = text.length) (more : left.dropWhile blank ≠ [])
    (marks : Marks text (low + (passed left).length) (remaining left) pointers) :
    Marks text low left ((low + (left.takeWhile blank).length) :: pointers) := by
  have some_word := passed_word left more
  have whole := (drop_passed left).2
  refine ⟨List.pairwise_cons.mpr ⟨fun place member => ?_, marks.sorted⟩, ?_, ?_⟩
  · have above := marks.above place member
    omega
  · intro place member
    rcases List.mem_cons.mp member with rfl | member
    · omega
    · have above := marks.above place member
      omega
  · have behind : text.drop (low + (left.takeWhile blank).length) = left.dropWhile blank := by
      rw [← List.drop_drop, here]
      calc left.drop _ = (left.takeWhile blank ++ left.dropWhile blank).drop _ := by rw [List.takeWhile_append_dropWhile]
        _ = left.dropWhile blank := List.drop_left
    rw [List.map_cons, words_left left more, marks.found, wordAt, behind]

/-- All the rounds. -/
theorem parseLoop_splits (done rest : List UInt8) (stored : List Nat) (printed : List UInt8) (plain : 0 ∉ left) (enough : left.length < steps) (turns : left.length < rounds) (room : stored.length ≤ maxargs)
    (here : text.drop done.length = left) (inside : done.length + left.length = text.length) :
    (stored.length + (words blank left).length ≤ maxargs → ∃ pointers printed', Marks text done.length left pointers ∧
      Returns (parseLoop steps rounds done.length stored.length) ⟨done ++ (left ++ 0 :: rest), slots stored, printed⟩ (stored ++ pointers).length
        ⟨done ++ (left.map erase ++ 0 :: rest), slots (stored ++ pointers), printed'⟩) ∧
      (maxargs < stored.length + (words blank left).length →
        parseLoop steps rounds done.length stored.length ⟨done ++ (left ++ 0 :: rest), slots stored, printed⟩ = none) := by
  induction rounds generalizing left done stored printed with
  | zero => omega
  | succ rounds ih =>
    by_cases ended : left.dropWhile blank = []
    · have none_left : words blank left = [] := by rw [← words_dropWhile, ended, words_nil]
      rw [none_left]
      refine ⟨fun _ => ⟨[], printed, ⟨List.Pairwise.nil, fun _ member => absurd member List.not_mem_nil, none_left.symm⟩, ?_⟩,
        fun many => absurd room (Nat.not_le.mpr many)⟩
      rw [List.append_nil]
      exact parseLoop_end plain enough ended
    · obtain ⟨ahead, whole⟩ := drop_passed left
      have some_word := passed_word left ended
      rw [words_left left ended, List.length_cons]
      rcases Nat.lt_or_eq_of_le room with room | full
      · obtain ⟨printed', round⟩ : ∃ printed', parseLoop steps (rounds + 1) done.length stored.length _ = _ := parseLoop_round plain enough ended room
        have plain' : 0 ∉ remaining left := by
          rw [← ahead]
          exact fun member => plain (List.mem_of_mem_drop member)
        have here' : text.drop (done ++ passed left).length = remaining left := by rw [List.length_append, ← List.drop_drop, here, ahead]
        have inside' : (done ++ passed left).length + (remaining left).length = text.length := by
          rw [List.length_append]
          omega
        obtain ⟨splits, stops⟩ := @ih (remaining left) (done ++ passed left) (stored ++ [done.length + (left.takeWhile blank).length]) printed'
          plain' (by omega) (by omega) (by simpa using room) here' inside'
        have one : (stored ++ [done.length + (left.takeWhile blank).length]).length = stored.length + 1 := by
          rw [List.length_append, List.length_singleton]
        rw [one] at splits stops
        constructor
        · intro few
          obtain ⟨pointers, printed'', marks, ran⟩ := splits (by omega)
          rw [List.length_append] at marks
          refine ⟨_, printed'', marks.cons here inside ended, ?_⟩
          rw [Returns, round, one, erased_passed left]
          simp only [List.append_assoc, List.singleton_append] at ran ⊢
          exact ran
        · intro many
          rw [round, one]
          exact stops (by omega)
      · exact ⟨fun few => by omega, fun _ => parseLoop_stops plain enough ended full⟩

/-! ## The contract -/

/-- A command line, with what is behind it in its object. -/
structure Line where
  text : List UInt8
  plain : 0 ∉ text
  rest : List UInt8

/-- Nothing has been stored in `argv`. -/
def Line.frame (line : Line) (printed : List UInt8) : Frame := ⟨line.text ++ 0 :: line.rest, List.replicate maxargs none, printed⟩

theorem parse_splits (line : Line) (printed : List UInt8) :
    ((words blank line.text).length ≤ maxargs → ∃ pointers printed', Marks line.text 0 line.text pointers ∧
      Returns (parse 0) (line.frame printed) pointers.length ⟨line.text.map erase ++ 0 :: line.rest, slots pointers, printed'⟩) ∧
      (maxargs < (words blank line.text).length → parse 0 (line.frame printed) = none) := by
  have enough : line.text.length < (line.frame printed).buf.length + 1 := by
    rw [Line.frame, List.length_append]
    omega
  obtain ⟨splits, stops⟩ := parseLoop_splits [] line.rest [] printed line.plain enough enough (Nat.zero_le _) rfl (Nat.zero_add _)
  rw [List.length_nil, Nat.zero_add] at splits stops
  exact ⟨splits, stops⟩

/-- The words of the line are terminated where they stand, their places are in `argv` in their order, and
there is room for them. -/
structure Splits (line : Line) (count : Nat) (after : Frame) (pointers : List Nat) : Prop where
  sorted : pointers.Pairwise (· < ·)
  found : pointers.map (wordAt line.text) = words blank line.text
  terminated : ∀ place ∈ pointers, stringAt after.buf place = wordAt line.text place
  counted : count = pointers.length
  stored : after.argv = slots pointers
  bounded : pointers.length ≤ maxargs

/-- `parse` splits the line, and `runcmd` returns: it uses no pointer that has not been stored. -/
def Contained (debug : Debug) (line : Line) : Prop :=
  ∀ printed, (∃ count after pointers, Returns (parse 0) (line.frame printed) count after ∧ Splits line count after pointers) ∧
    ∃ ret after, Returns (runcmd debug 0) (line.frame printed) ret after

variable {frame : Frame}

theorem load_inside {i : Nat} {ch : UInt8} (inside : frame.buf[i]? = some ch) : Returns (load i) frame ch frame := by
  rw [Returns, load, goes_on (returns_gets.mpr ⟨rfl, rfl⟩), inside]
  rfl

/-- A comparison does not leave a string that ends. -/
theorem strcmp_returns {s : List UInt8} {i : Nat} (plain : 0 ∉ s) (ends : ∃ k, i ≤ k ∧ frame.buf[k]? = some 0) :
    ∃ order, Returns (strcmp s i) frame order frame := by
  obtain ⟨k, before, nul⟩ := ends
  have here : i < frame.buf.length := before.trans_lt (List.getElem?_eq_some_iff.mp nul).1
  have loads : Returns (load i) frame frame.buf[i] frame := load_inside (List.getElem?_eq_getElem here)
  induction s generalizing i with
  | nil => exact ⟨_, returns_bind.mpr ⟨_, _, loads, returns_pure.mpr ⟨rfl, rfl⟩⟩⟩
  | cons ch s ih =>
    by_cases same : ch = frame.buf[i]
    · have apart : i ≠ k := by
        rintro rfl
        rw [List.getElem?_eq_getElem here, ← same] at nul
        cases nul
        exact plain List.mem_cons_self
      have further : i + 1 < frame.buf.length := by
        have inside := (List.getElem?_eq_some_iff.mp nul).1
        omega
      obtain ⟨order, ran⟩ := ih (fun member => plain (List.mem_cons_of_mem _ member)) (by omega) further
        (load_inside (List.getElem?_eq_getElem further))
      exact ⟨order, returns_bind.mpr ⟨_, _, loads, by rw [if_pos same]; exact ran⟩⟩
    · exact ⟨_, returns_bind.mpr ⟨_, _, loads, by rw [if_neg same]; exact returns_pure.mpr ⟨rfl, rfl⟩⟩⟩

theorem loadArg_returns {place : Nat} (stored : frame.argv[0]? = some (some place)) : Returns (loadArg 0) frame place frame := by
  rw [Returns, loadArg, goes_on (returns_gets.mpr ⟨rfl, rfl⟩), stored]
  rfl

theorem call_returns (debug : Debug) (func : Func) (argc argv : Nat) (frame : Frame) : ∃ after, Returns (func.call debug argc argv) frame 0 after := by
  cases func <;> exact ⟨_, rfl⟩

/-- With its first word stored, a line is looked up among commands. -/
theorem dispatch_returns (debug : Debug) (frame : Frame) {place : Nat} (stored : frame.argv[0]? = some (some place)) (ends : ∃ k, place ≤ k ∧ frame.buf[k]? = some 0)
    (list : List Command) (plain : ∀ command ∈ list, 0 ∉ command.name) (argc : Nat) : ∃ ret after, Returns (dispatch debug argc list) frame ret after := by
  have argument := loadArg_returns stored
  induction list with
  | nil =>
    obtain ⟨k, behind, nul⟩ := ends
    have there : (frame.buf.drop place).contains 0 = true := by
      rw [List.contains_iff_mem]
      apply List.mem_of_getElem? (i := k - place)
      rw [List.getElem?_drop, Nat.add_sub_cancel' behind]
      exact nul
    have text : Returns (loadString place) frame ((frame.buf.drop place).takeWhile fun ch => ch ≠ 0) frame := by
      rw [Returns, loadString, goes_on (returns_gets.mpr ⟨rfl, rfl⟩), there]
      rfl
    exact ⟨0, _, returns_bind.mpr ⟨_, _, argument, returns_bind.mpr ⟨_, _, text, rfl⟩⟩⟩
  | cons command list ih =>
    obtain ⟨order, compared⟩ := strcmp_returns (plain command List.mem_cons_self) ends
    rw [dispatch]
    by_cases same : order = 0
    · obtain ⟨after, called⟩ := call_returns debug command.func (argc - 1) 1 frame
      exact ⟨0, after, returns_bind.mpr ⟨_, _, argument, returns_bind.mpr ⟨_, _, compared, by rw [if_pos same]; exact called⟩⟩⟩
    · obtain ⟨ret, after, ran⟩ := ih fun other member => plain other (List.mem_cons_of_mem _ member)
      exact ⟨ret, after, returns_bind.mpr ⟨_, _, argument, returns_bind.mpr ⟨_, _, compared, by rw [if_neg same]; exact ran⟩⟩⟩

theorem commands_plain : ∀ command ∈ commands, 0 ∉ command.name := by decide

/-- The monitor gets along with a line exactly if there is room in `argv` for its words. -/
theorem monitor_contains_iff (debug : Debug) (line : Line) : Contained debug line ↔ (words blank line.text).length ≤ maxargs := by
  constructor
  · intro contained
    obtain ⟨⟨count, after, pointers, ran, -⟩, -⟩ := contained []
    by_contra many
    have stopped := (parse_splits line []).2 (Nat.lt_of_not_le many)
    rw [Returns, stopped] at ran
    cases ran
  · intro few printed
    obtain ⟨pointers, printed', marks, ran⟩ := (parse_splits line printed).1 few
    have count : pointers.length = (words blank line.text).length := by rw [← marks.found, List.length_map]
    have bounded : pointers.length ≤ maxargs := count ▸ few
    refine ⟨⟨_, _, pointers, ran, marks.sorted, marks.found, ?_, rfl, rfl, bounded⟩, ?_⟩
    · intro place member
      exact stringAt_erased line.plain place (marks.above place member).2.le
    · have fresh : Returns (Call.modify fun frame : Frame => { frame with argv := List.replicate maxargs none }) (line.frame printed) () (line.frame printed) := rfl
      cases pointers with
      | nil => exact ⟨0, _, returns_bind.mpr ⟨_, _, fresh, returns_bind.mpr ⟨_, _, ran, rfl⟩⟩⟩
      | cons place others =>
        have inside := (marks.above place List.mem_cons_self).2
        have ends : ∃ k, place ≤ k ∧ (line.text.map erase ++ 0 :: line.rest)[k]? = some 0 := by
          refine ⟨line.text.length, inside.le, ?_⟩
          rw [List.getElem?_append_right (by rw [List.length_map]), List.length_map, Nat.sub_self]
          rfl
        obtain ⟨ret, after, dispatched⟩ := dispatch_returns debug
          ⟨line.text.map erase ++ 0 :: line.rest, slots (place :: others), printed'⟩ rfl ends commands commands_plain (place :: others).length
        exact ⟨ret, after, returns_bind.mpr ⟨_, _, fresh, returns_bind.mpr ⟨_, _, ran, dispatched⟩⟩⟩

/-- Seventeen words of one letter. -/
def seventeen : Line := ⟨Printfmt.bytes "a a a a a a a a a a a a a a a a a", by decide, []⟩

/-- The seventeenth word is stored behind `argv`. -/
theorem seventeen_words_overflow : parse 0 (seventeen.frame []) = none ∧ ∀ debug, ¬ Contained debug seventeen := by
  have many : maxargs < (words blank seventeen.text).length := by decide
  have stopped := (parse_splits seventeen []).2 many
  refine ⟨stopped, fun debug contained => ?_⟩
  obtain ⟨⟨count, after, pointers, ran, -⟩, -⟩ := contained []
  rw [Returns, stopped] at ran
  cases ran

end Ucore.Kmonitor
