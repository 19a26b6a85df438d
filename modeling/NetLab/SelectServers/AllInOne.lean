import NetLab.Posix.Select
import NetLab.Posix.Text

/-!
# The two servers for everything

`allinone/server.c` reads from the keyboard, a pipe, a fifo and a process, and prints what it
reads; `poll` tells it where. The server of `selectservers` does the same with `select`, but
fills its descriptor set before the descriptors are opened, and up to `argc-1` only.
-/

namespace NetLab.SelectServers

open NetLab.Imperative NetLab.Posix

/-- What waits at the four sources, and what was printed so far. -/
structure Console where
  waiting : ℕ → List Byte
  printed : List (List Byte)

/-- `readbuf` as it is printed. It was cleared, and is not terminated after 100 bytes. -/
def printedLine (behind data : List Byte) : List Byte :=
  cString ((storePrefix data (Vector.replicate 100 0#8)).toList ++ behind) ++ literal "\n"

/-- `read`, `fprintf` and `memset` for a source. -/
def Console.serve (behind : List Byte) (i : ℕ) (console : Console) : Console where
  waiting := Function.update console.waiting i ((console.waiting i).drop 100)
  printed := console.printed ++ [printedLine behind ((console.waiting i).take 100)]

/-- The loop over the sources in which both servers serve those that are reported. -/
def Console.serveReported (behind : List Byte) (reported : ℕ → Bool) (console : Console) :
    Console :=
  forUp 0 4 (fun i current => if reported i then current.serve behind i else current) console

def Console.start (argc : ℕ) : Console where
  waiting _ := []
  printed := [decimal argc ++ literal "\n"]

def Console.arrive (data : ℕ → List Byte) (console : Console) : Console :=
  { console with waiting := fun i => console.waiting i ++ data i }

def Console.ready (console : Console) (i : ℕ) : Bool :=
  !(console.waiting i).isEmpty

def Console.pollPass (behind : List Byte) (console : Console) : Console :=
  console.serveReported behind console.ready

/-- The table of the other server, and what the memory behind it holds as descriptors. The keyboard
is the standard input. -/
structure Fdp where
  fd : ℕ → ℕ
  keyboard : fd 0 = 0
  distinct : ∀ i < 4, ∀ j < 4, fd i = fd j → i = j

/-- The table when an iteration begins. In the first one the set was filled from a table of
zeros. -/
def Fdp.table (fdp : Fdp) (time i : ℕ) : ℕ :=
  if time = 0 ∧ i < 4 then 0 else fdp.fd i

structure SelectServer where
  console : Console
  interest : Interest

def SelectServer.start (fdp : Fdp) (argc : ℕ) : SelectServer where
  console := Console.start argc
  interest := Interest.fill (argc - 1) (fdp.table 0) { readset := ∅, max := 0 }

def Console.readable (fdp : Fdp) (console : Console) : Finset ℕ :=
  {i ∈ Finset.range 4 | console.ready i}.image fdp.fd

def SelectServer.pass (fdp : Fdp) (argc : ℕ) (behind : List Byte) (server : SelectServer) :
    SelectServer :=
  let (_, readset) := select (server.interest.max + 1) server.interest.readset
    (.ready (server.console.readable fdp))
  { console := server.console.serveReported behind fun i => fdp.fd i ∈ readset
    interest := Interest.fill (argc - 1) fdp.fd { server.interest with readset } }

/-- The server that polls after a number of iterations, before each of which something arrives. -/
def pollAfter (argc : ℕ) (behind : List Byte) (arrives : ℕ → ℕ → List Byte) : ℕ → Console
  | 0 => Console.start argc
  | time + 1 => ((pollAfter argc behind arrives time).arrive (arrives time)).pollPass behind

def SelectServer.arrive (data : ℕ → List Byte) (server : SelectServer) : SelectServer :=
  { server with console := server.console.arrive data }

def selectAfter (fdp : Fdp) (argc : ℕ) (behind : List Byte) (arrives : ℕ → ℕ → List Byte) :
    ℕ → SelectServer
  | 0 => SelectServer.start fdp argc
  | time + 1 =>
      ((selectAfter fdp argc behind arrives time).arrive (arrives time)).pass fdp argc behind

/-- The source is among those that the server selects from in an iteration. -/
def Fdp.Watched (fdp : Fdp) (argc time j : ℕ) : Prop :=
  ∃ i < argc - 1, fdp.table time i = fdp.fd j

section Serving

variable {behind : List Byte} {reported other : ℕ → Bool} {console : Console} {i : ℕ}

theorem serveReported_congr (agree : ∀ i < 4, reported i = other i) :
    console.serveReported behind reported = console.serveReported behind other := by
  apply forUp_relate 0 0 4 (fun _ current same => current = same) rfl
  rintro taken current _ below rfl
  rw [Nat.zero_add, agree taken below]

theorem length_printed_serveReported (console : Console) :
    (console.serveReported behind reported).printed.length =
      console.printed.length + {i ∈ Finset.range 4 | reported i}.card := by
  apply forUp_induction (fun bound (current : Console) => current.printed.length =
    console.printed.length + {i ∈ Finset.range bound | reported i}.card) (Nat.zero_le 4)
  · rfl
  · intro i current _ _ held
    rw [Finset.range_add_one, Finset.filter_insert]
    split
    · rw [Finset.card_insert_of_notMem (by simp), ← Nat.add_assoc, ← held]
      exact List.length_append
    · exact held

theorem ready_of_ready_serveReported
    (left : (console.serveReported behind reported).ready i = true) : console.ready i = true := by
  revert left
  apply forUp_induction (fun _ (current : Console) =>
    current.ready i = true → console.ready i = true) (Nat.zero_le 4)
  · exact id
  · intro j current _ _ held left
    apply held
    split at left
    case isFalse => exact left
    case isTrue =>
      rcases eq_or_ne i j with rfl | apart
      · simp only [Console.ready, Console.serve, Function.update_self] at left ⊢
        cases empty : current.waiting i with
        | nil => simp [empty] at left
        | cons byte rest => rfl
      · simpa [Console.ready, Console.serve, apart] using left

end Serving

section Runs

variable {fdp : Fdp} {argc time j : ℕ} {behind : List Byte} {arrives : ℕ → ℕ → List Byte}
  {server : SelectServer} {console : Console}

theorem Fdp.Watched.later (watched : fdp.Watched argc time j) : fdp.Watched argc (time + 1) j := by
  have table (i : ℕ) : fdp.table (time + 1) i = fdp.fd i := if_neg (by omega)
  rcases watched with ⟨i, below, same⟩
  by_cases first : time = 0 ∧ i < 4
  · refine ⟨0, by omega, ?_⟩
    rw [table, fdp.keyboard, ← same, Fdp.table, if_pos first]
  · exact ⟨i, below, by rw [table, ← same, Fdp.table, if_neg first]⟩

theorem mem_readable (fdp : Fdp) (console : Console) (source : j < 4) :
    fdp.fd j ∈ console.readable fdp ↔ console.ready j = true := by
  rw [Console.readable, Finset.mem_image]
  constructor
  · rintro ⟨i, listed, same⟩
    rw [Finset.mem_filter, Finset.mem_range] at listed
    rw [← fdp.distinct i listed.1 j source same]
    exact listed.2
  · intro ready
    exact ⟨j, Finset.mem_filter.mpr ⟨Finset.mem_range.mpr source, ready⟩, rfl⟩

theorem watched_iff (watching : Watching (argc - 1) (fdp.table time) server.interest) :
    fdp.fd j ∈ server.interest.readset ↔ fdp.Watched argc time j := by
  constructor
  · exact watching.only _
  · rintro ⟨i, below, same⟩
    exact same ▸ watching.each i below

/-- Of the sources that have something to be read, those that are watched are reported. -/
theorem mem_select_iff (watching : Watching (argc - 1) (fdp.table time) server.interest)
    (console : Console) (source : j < 4) :
    fdp.fd j ∈ (select (server.interest.max + 1) server.interest.readset
        (.ready (console.readable fdp))).2 ↔
      fdp.Watched argc time j ∧ console.ready j = true := by
  rw [mem_select_ready, watched_iff watching, mem_readable fdp console source]
  constructor
  · exact And.left
  · rintro ⟨watched, ready⟩
    refine ⟨⟨watched, ready⟩, ?_⟩
    rcases watched with ⟨i, below, same⟩
    exact same ▸ Nat.lt_succ_of_le (watching.below i below)

theorem watching_pass (watching : Watching (argc - 1) (fdp.table time) server.interest) :
    Watching (argc - 1) (fdp.table (time + 1)) (server.pass fdp argc behind).interest := by
  have table : fdp.table (time + 1) = fdp.fd := funext fun i => if_neg (by omega)
  rw [table]
  apply watching_fill
  intro descriptor listed
  have kept := select_subset (server.interest.max + 1) server.interest.readset
    (.ready (server.console.readable fdp)) listed
  rcases watching.only descriptor kept with ⟨i, below, rfl⟩
  by_cases first : time = 0 ∧ i < 4
  · refine ⟨0, by omega, ?_⟩
    rw [fdp.keyboard, Fdp.table, if_pos first]
  · exact ⟨i, below, (if_neg first).symm⟩

/-- Both servers have done the same, and what they have not read yet is watched. -/
structure Together (fdp : Fdp) (argc time : ℕ) (server : SelectServer) (console : Console) :
    Prop where
  same : server.console = console
  watching : Watching (argc - 1) (fdp.table time) server.interest
  left : ∀ j < 4, console.ready j = true → fdp.Watched argc time j

theorem together_start (fdp : Fdp) (argc : ℕ) :
    Together fdp argc 0 (SelectServer.start fdp argc) (Console.start argc) := by
  constructor
  case same => rfl
  case watching => exact watching_start _ _
  case left =>
    intro j _ ready
    cases ready

theorem ready_arrive (console : Console) (data : ℕ → List Byte) (j : ℕ) :
    (console.arrive data).ready j = true ↔ console.ready j = true ∨ data j ≠ [] := by
  simp only [Console.ready, Console.arrive]
  cases console.waiting j <;> cases data j <;> simp

/-- An iteration keeps the servers together if what arrives is watched. -/
theorem Together.pass (together : Together fdp argc time server console)
    {data : ℕ → List Byte} (watched : ∀ j < 4, data j ≠ [] → fdp.Watched argc time j) :
    Together fdp argc (time + 1) ((server.arrive data).pass fdp argc behind)
      ((console.arrive data).pollPass behind) := by
  have reaches : ∀ j < 4, (console.arrive data).ready j = true → fdp.Watched argc time j := by
    intro j source ready
    rcases (ready_arrive console data j).mp ready with left | arrived
    · exact together.left j source left
    · exact watched j source arrived
  have arrived : (server.arrive data).console = console.arrive data :=
    congrArg (Console.arrive data) together.same
  constructor
  case same =>
    simp only [SelectServer.pass, arrived]
    apply serveReported_congr
    intro j source
    have reported := @mem_select_iff fdp argc time j (server.arrive data) together.watching
      (console.arrive data) source
    rw [Bool.eq_iff_iff, decide_eq_true_iff, reported, and_iff_right_iff_imp]
    exact reaches j source
  case watching => exact watching_pass together.watching
  case left =>
    intro j source ready
    exact (reaches j source (ready_of_ready_serveReported ready)).later

/-- If something arrives that is not watched, the server that polls prints more. -/
theorem Together.watched (together : Together fdp argc time server console)
    {data : ℕ → List Byte}
    (printed : ((server.arrive data).pass fdp argc behind).console.printed =
      ((console.arrive data).pollPass behind).printed) :
    ∀ j < 4, data j ≠ [] → fdp.Watched argc time j := by
  have arrived : (server.arrive data).console = console.arrive data :=
    congrArg (Console.arrive data) together.same
  have reported (j : ℕ) := @mem_select_iff fdp argc time j (server.arrive data)
    together.watching (console.arrive data)
  have lengths := congrArg List.length printed
  simp only [SelectServer.pass, arrived, Console.pollPass, length_printed_serveReported,
    Nat.add_left_cancel_iff] at lengths
  have among := Finset.eq_of_subset_of_card_le ?_ lengths.ge
  · intro j source nonempty
    have ready : j ∈ {i ∈ Finset.range 4 | (console.arrive data).ready i = true} :=
      Finset.mem_filter.mpr ⟨Finset.mem_range.mpr source,
        (ready_arrive console data j).mpr (Or.inr nonempty)⟩
    rw [← among, Finset.mem_filter, decide_eq_true_iff] at ready
    exact ((reported j source).mp ready.2).1
  · intro j listed
    rw [Finset.mem_filter, Finset.mem_range, decide_eq_true_iff] at listed
    rw [Finset.mem_filter, Finset.mem_range]
    exact ⟨listed.1, ((reported j listed.1).mp listed.2).2⟩

theorem watching_after (fdp : Fdp) (argc : ℕ) (behind : List Byte) (arrives : ℕ → ℕ → List Byte)
    (time : ℕ) : Watching (argc - 1) (fdp.table time)
      (selectAfter fdp argc behind arrives time).interest := by
  induction time with
  | zero => exact watching_start _ _
  | succ time ih =>
      exact @watching_pass fdp argc time behind
        ((selectAfter fdp argc behind arrives time).arrive (arrives time)) ih

theorem serveReported_none {reported : ℕ → Bool} (none : ∀ i < 4, reported i = false) :
    console.serveReported behind reported = console := by
  apply forUp_induction (fun _ current => current = console) (Nat.zero_le 4) rfl
  rintro i _ _ below rfl
  rw [none i below, if_neg Bool.false_ne_true]

/-- Without arguments the server with `select` waits for nothing. -/
theorem printed_without_arguments (fdp : Fdp) (behind : List Byte) (arrives : ℕ → ℕ → List Byte)
    (time : ℕ) : (selectAfter fdp 1 behind arrives time).console.printed =
      (Console.start 1).printed := by
  induction time with
  | zero => rfl
  | succ time ih =>
      have watching := watching_after fdp 1 behind arrives time
      rw [selectAfter, SelectServer.pass, ← ih]
      simp only
      rw [serveReported_none]
      · rfl
      · intro i source
        rw [decide_eq_false_iff_not]
        intro reported
        have watched := (@mem_select_iff fdp 1 time i
          ((selectAfter fdp 1 behind arrives time).arrive (arrives time)) watching _ source).mp
          reported
        rcases watched.1 with ⟨_, below, _⟩
        omega

end Runs

/-- After each iteration the two servers have printed the same lines exactly when data only arrive
at sources that the server with `select` watches at the time. -/
theorem printed_eq_iff (fdp : Fdp) (argc : ℕ) (behind : List Byte)
    (arrives : ℕ → ℕ → List Byte) :
    (∀ time, (selectAfter fdp argc behind arrives time).console.printed =
        (pollAfter argc behind arrives time).printed) ↔
      ∀ time, ∀ j < 4, arrives time j ≠ [] → fdp.Watched argc time j := by
  constructor
  · intro printed
    have together : ∀ time, Together fdp argc time (selectAfter fdp argc behind arrives time)
        (pollAfter argc behind arrives time) := by
      intro time
      induction time with
      | zero => exact together_start fdp argc
      | succ time ih => exact ih.pass (ih.watched (printed (time + 1)))
    intro time
    exact (together time).watched (printed (time + 1))
  · intro watched time
    have together : Together fdp argc time (selectAfter fdp argc behind arrives time)
        (pollAfter argc behind arrives time) := by
      induction time with
      | zero => exact together_start fdp argc
      | succ time ih => exact ih.pass (watched time)
    rw [together.same]

def freshFdp : Fdp where
  fd i := if i = 0 then 0 else i + 2
  keyboard := rfl
  distinct := by
    intro i _ j _ same
    grind

def typedLine (time i : ℕ) : List Byte :=
  if time = 0 ∧ i = 0 then literal "hello
" else []

/-- The server that polls prints the line, and the other one never does. -/
theorem typed_line_lost : (pollAfter 1 [] typedLine 1).printed =
      [literal "1\n", literal "hello\n\n"] ∧
    (∀ time, (selectAfter freshFdp 1 [] typedLine time).console.printed = [literal "1\n"]) ∧
    ¬∀ time, (selectAfter freshFdp 1 [] typedLine time).console.printed =
      (pollAfter 1 [] typedLine time).printed := by
  have typed : (pollAfter 1 [] typedLine 1).printed =
      [literal "1\n", literal "hello\n\n"] := by decide +kernel
  have silent (time : ℕ) : (selectAfter freshFdp 1 [] typedLine time).console.printed =
      [literal "1\n"] :=
    printed_without_arguments freshFdp [] typedLine time
  refine ⟨typed, silent, ?_⟩
  intro same
  have lengths := congrArg List.length (same 1)
  rw [silent, typed] at lengths
  cases lengths

end NetLab.SelectServers
