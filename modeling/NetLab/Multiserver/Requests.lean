import NetLab.Imperative.Loop
import NetLab.Posix.Fields

/-!
# Requests to the multi-server

`multiserver/multiserver.c` takes a message apart at the bars. The first field names the
service, and for `s2` all fields become the arguments of a process. There are ten slots for
them with twenty bytes each, and a message can have more and longer fields.
-/

namespace NetLab.Multiserver

open NetLab.Imperative NetLab.Posix NetLab.Structures

/-- What must not happen: a null pointer is passed to `strcmp`, a string is stored that is longer
than its allocated field, or a pointer behind `argv[10]`. -/
inductive Fault where
  | nullToken
  | outsideField
  | outsideArgv
deriving DecidableEq

/-- What comes of a message. The arguments of `execv` are a null pointer or an array of pointers. -/
inductive Outcome where
  | fault (fault : Fault)
  | execv (path : String) (argv : Option (List (Option (List Byte))))
  | ignored
deriving DecidableEq

/-- The slots of `argv` that are filled, and what the last call of `strtok` returned. -/
structure Child where
  argv : List (List Byte)
  token : Option (List Byte × List Byte)

/-- A pass of the loop of the child, or what follows the loop. -/
def Child.pass (child : Child) : Pass Child Outcome :=
  match child.token with
  | none =>
      .leave (if child.argv.length < 10 then .execv "s1" (some (child.argv.map some ++ [none]))
        else .fault .outsideArgv)
  | some (token, rest) =>
      if child.argv.length < 10 then
        if token.length < 20 then
          .again { argv := child.argv ++ [token], token := strtok (literal "|") rest }
        else .leave (.fault .outsideField)
      else .leave (.fault .outsideArgv)

def cleared : Vector Byte 100 :=
  Vector.replicate 100 0#8

/-- The service of a message that is read into `readbuf`, which is cleared behind. -/
def serve (readbuf : Vector Byte 100) (message : List Byte) :
    Option Outcome × Vector Byte 100 :=
  let text := cString (storePrefix message readbuf).toList
  let outcome :=
    match strtok (literal "|") text with
    | none => some (.fault .nullToken)
    | some (token, rest) =>
        if token = literal "s1" then some (.execv "s1" none)
        else if token = literal "s2" then
          loop Child.pass (text.length + 1) { argv := [], token := some (token, rest) }
        else some .ignored
  (outcome, cleared)

def readbufAfter (earlier : List (List Byte)) : Vector Byte 100 :=
  earlier.foldl (fun readbuf message => (serve readbuf message).2) cleared

/-- The fields of a message, which as a string ends at its first zero. -/
def requestFields (message : List Byte) : List (List Byte) :=
  words (separates (literal "|")) (cString message)

def Fits (fields : List (List Byte)) : Prop :=
  fields.length < 10 ∧ ∀ field ∈ fields, field.length < 20

instance (fields : List (List Byte)) : Decidable (Fits fields) :=
  inferInstanceAs (Decidable (_ ∧ _))

/-- Nothing goes wrong, and for `s2` the arguments are the fields. -/
structure Parses (message : List Byte) (outcome : Outcome) : Prop where
  safe : ∀ fault, outcome ≠ .fault fault
  argv : (requestFields message).head? = some (literal "s2") →
    outcome = .execv "s1" (some ((requestFields message).map some ++ [none]))

def Roomy (message : List Byte) : Prop :=
  requestFields message ≠ [] ∧
    ((requestFields message).head? = some (literal "s2") → Fits (requestFields message))

instance (message : List Byte) : Decidable (Roomy message) :=
  inferInstanceAs (Decidable (_ ∧ _))

section Child

variable {fields : List (List Byte)} {child next : Child} {outcome : Outcome}

def Child.remaining (child : Child) : List (List Byte) :=
  child.token.elim [] fun found => found.1 :: words (separates (literal "|")) found.2

theorem remaining_strtok (argv : List (List Byte)) (text : List Byte) :
    Child.remaining { argv, token := strtok (literal "|") text } =
      words (separates (literal "|")) text := by
  cases found : strtok (literal "|") text with
  | none => exact (strtok_none found).symm
  | some next => exact (strtok_some found).symm

/-- The loop has stored a part of the fields, with room for each of them. -/
structure Child.Storing (fields : List (List Byte)) (child : Child) : Prop where
  split : child.argv ++ child.remaining = fields
  short : ∀ field ∈ child.argv, field.length < 20

/-- The child runs with the fields as its arguments, or it fails if they do not fit. -/
def Child.Right (fields : List (List Byte)) (outcome : Outcome) : Prop :=
  if Fits fields then outcome = .execv "s1" (some (fields.map some ++ [none]))
  else ∃ fault, outcome = .fault fault

theorem Child.Storing.leave (storing : child.Storing fields)
    (leaves : child.pass = .leave outcome) : Child.Right fields outcome := by
  rcases child with ⟨argv, token⟩
  have split := storing.split
  rw [Child.pass] at leaves
  cases token with
  | none =>
      have whole : argv = fields := (List.append_nil argv).symm.trans split
      cases leaves
      rw [Child.Right, ← whole]
      by_cases room : argv.length < 10
      · rw [if_pos ⟨room, storing.short⟩]
        exact if_pos room
      · rw [if_neg fun fits => room fits.1]
        exact ⟨.outsideArgv, if_neg room⟩
  | some next =>
      have listed : next.1 ∈ fields := by
        rw [← split]
        exact List.mem_append_right _ List.mem_cons_self
      have count : argv.length < fields.length := by
        rw [← split, Child.remaining]
        simp
      simp only at leaves
      split at leaves
      case isTrue =>
        split at leaves
        case isTrue => cases leaves
        case isFalse long =>
          cases leaves
          rw [Child.Right, if_neg fun fits => long (fits.2 _ listed)]
          exact ⟨.outsideField, rfl⟩
      case isFalse full =>
        cases leaves
        rw [Child.Right, if_neg fun fits => full (count.trans fits.1)]
        exact ⟨.outsideArgv, rfl⟩

theorem Child.Storing.again (storing : child.Storing fields) (repeats : child.pass = .again next) :
    next.Storing fields ∧ next.remaining.length < child.remaining.length := by
  rcases child with ⟨argv, token⟩
  have split := storing.split
  rw [Child.pass] at repeats
  cases token with
  | none => cases repeats
  | some found =>
      simp only at repeats
      split at repeats
      case isFalse => cases repeats
      case isTrue =>
        split at repeats
        case isFalse => cases repeats
        case isTrue short =>
          cases repeats
          rw [Child.remaining, Option.elim_some] at split
          refine ⟨⟨?_, ?_⟩, ?_⟩
          · rw [remaining_strtok, List.append_assoc]
            exact split
          · intro field listed
            rcases List.mem_append.mp listed with before | last
            · exact storing.short field before
            · rw [List.mem_singleton.mp last]
              exact short
          · rw [remaining_strtok]
            exact Nat.lt_succ_self _

/-- The loop of the child ends, and does what is right for the fields. -/
theorem loop_childPass {token rest : List Byte} {fuel : ℕ}
    (split : token :: words (separates (literal "|")) rest = fields)
    (enough : fields.length < fuel) :
    ∃ outcome, loop Child.pass fuel { argv := [], token := some (token, rest) } = some outcome ∧
      Child.Right fields outcome := by
  have start : Child.Storing fields { argv := [], token := some (token, rest) } :=
    ⟨split, by simp⟩
  apply loop_total (Child.Storing fields) (fun child => child.remaining.length)
    (Child.Right fields) _ _ start
  · rw [Child.remaining, Option.elim_some, split]
    exact enough
  · exact fun child outcome storing => storing.leave
  · exact fun child next storing => storing.again

end Child

section Serve

variable {message : List Byte}

theorem readbufAfter_eq (earlier : List (List Byte)) : readbufAfter earlier = cleared := by
  induction earlier using List.reverseRecOn with
  | nil => rfl
  | append_singleton earlier message _ =>
      rw [readbufAfter, List.foldl_append]
      rfl

/-- A message of less than a hundred bytes is terminated by a byte that was cleared. -/
theorem text_eq (short : message.length ≤ 99) :
    cString (storePrefix message cleared).toList = cString message := by
  have fits : message.length ≤ 100 := by omega
  have rest : ∃ behind, cleared.toList.drop message.length = 0#8 :: behind := by
    refine ⟨List.replicate (99 - message.length) 0#8, ?_⟩
    rw [cleared, Vector.toList_replicate, List.drop_replicate, ← List.replicate_succ]
    congr 1
    omega
  rcases rest with ⟨behind, zero⟩
  rw [toList_storePrefix fits, zero]
  by_cases terminated : 0#8 ∈ message
  · exact cString_append_of_mem terminated _
  · rw [cString_append terminated, cString_zero_cons, List.append_nil,
      cString_of_notMem terminated]

theorem parses_other {token : List Byte} {others : List (List Byte)} {outcome : Outcome}
    (fields : requestFields message = token :: others) (other : token ≠ literal "s2")
    (safe : ∀ fault, outcome ≠ .fault fault) : Parses message outcome ∧ Roomy message := by
  have apart : (requestFields message).head? ≠ some (literal "s2") := by
    rw [fields]
    exact fun same => other (Option.some.inj same)
  refine ⟨⟨safe, fun same => absurd same apart⟩, ?_, fun same => absurd same apart⟩
  rw [fields]
  exact List.cons_ne_nil _ _

theorem parses_right {outcome : Outcome}
    (right : Child.Right (requestFields message) outcome) :
    Parses message outcome ↔ Fits (requestFields message) := by
  rw [Child.Right] at right
  constructor
  · intro parses
    by_contra unfit
    rw [if_neg unfit] at right
    rcases right with ⟨fault, rfl⟩
    exact parses.safe fault rfl
  · intro fits
    rw [if_pos fits] at right
    subst right
    exact ⟨fun _ => nofun, fun _ => rfl⟩

end Serve

/-- A message is served with its fields as arguments, and nothing is stored outside the array or an
allocated field and no null pointer compared, exactly when it has a field and, for `s2`, at most
nine of at most nineteen bytes. -/
theorem parses_iff_roomy (earlier : List (List Byte)) (message : List Byte)
    (short : message.length ≤ 99) :
    (∃ outcome, (serve (readbufAfter earlier) message).1 = some outcome ∧
      Parses message outcome) ↔ Roomy message := by
  rw [readbufAfter_eq, serve, text_eq short]
  cases found : strtok (literal "|") (cString message) with
  | none =>
      have empty : requestFields message = [] := strtok_none found
      apply iff_of_false
      · rintro ⟨outcome, same, parses⟩
        cases same
        exact parses.safe _ rfl
      · exact fun roomy => roomy.1 empty
  | some next =>
      rcases next with ⟨token, rest⟩
      have fields : requestFields message = token :: words (separates (literal "|")) rest :=
        strtok_some found
      simp only
      by_cases first : token = literal "s1"
      · have other : token ≠ literal "s2" := by
          rw [first]
          decide
        rw [if_pos first]
        have both := @parses_other message _ _ (.execv "s1" none) fields other fun _ => nofun
        exact iff_of_true ⟨_, rfl, both.1⟩ both.2
      · rw [if_neg first]
        by_cases second : token = literal "s2"
        · have service : (requestFields message).head? = some (literal "s2") := by
            rw [fields, second]
            rfl
          have enough : (requestFields message).length < (cString message).length + 1 :=
            Nat.lt_succ_of_le (length_words_le _ _)
          rcases loop_childPass fields.symm enough with ⟨outcome, ends, right⟩
          have parses := parses_right right
          rw [if_pos second, ends]
          constructor
          · rintro ⟨_, same, right⟩
            cases same
            refine ⟨?_, fun _ => parses.mp right⟩
            rw [fields]
            exact List.cons_ne_nil _ _
          · intro roomy
            exact ⟨outcome, rfl, parses.mpr (roomy.2 service)⟩
        · rw [if_neg second]
          have both := @parses_other message _ _ .ignored fields second fun _ => nofun
          exact iff_of_true ⟨_, rfl, both.1⟩ both.2

theorem parses_sum : ∃ outcome,
    (serve (readbufAfter [literal "s1"]) (literal "s2|3||4|")).1 = some outcome ∧
      Parses (literal "s2|3||4|") outcome :=
  (parses_iff_roomy [literal "s1"] (literal "s2|3||4|") (by decide)).mpr (by decide)

/-- With ten fields the pointer behind the last slot is stored, and an empty message has none. -/
theorem ten_fields_overrun :
    (serve (readbufAfter []) (literal "s2|1|2|3|4|5|6|7|8|9")).1 = some (.fault .outsideArgv) ∧
    (serve (readbufAfter []) []).1 = some (.fault .nullToken) ∧
    ¬∃ outcome, (serve (readbufAfter []) (literal "s2|1|2|3|4|5|6|7|8|9")).1 = some outcome ∧
      Parses (literal "s2|1|2|3|4|5|6|7|8|9") outcome := by
  have overrun : (serve (readbufAfter []) (literal "s2|1|2|3|4|5|6|7|8|9")).1 =
      some (.fault .outsideArgv) := by decide +kernel
  refine ⟨overrun, by decide +kernel, ?_⟩
  rintro ⟨outcome, served, parses⟩
  rw [overrun] at served
  cases served
  exact parses.safe _ rfl

end NetLab.Multiserver
