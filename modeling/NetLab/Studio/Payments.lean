import NetLab.Studio.Request

/-!
# The payments of the studio

The director asks every set and actor of a production for permission, keeps the
descriptors of those that give it, and passes them to the producer, who pays. The
arrays of these descriptors are filled on from one production to the next.
-/

namespace NetLab.Studio

/-- A set or an actor that is asked: the descriptor of the connection, and the number in the
answer. -/
structure Answer where
  setfd : ℤ
  perm : ℤ
deriving DecidableEq, Repr

/-- The sets and actors of a production as they answer, and what `namebuf` holds before. -/
structure Production where
  sets : List Answer
  actors : List Answer
  namebuf : Record

/-- The arrays `sets_accp` and `actors_accp` with the counters `s_a` and `a_a`. -/
structure Director where
  setsAccp : Entries
  actorsAccp : Entries
deriving DecidableEq, Repr

structure Paid where
  sets : List ℤ
  actors : List ℤ
deriving DecidableEq, Repr

def granted (answers : List Answer) : List ℤ :=
  (answers.filter fun answer => answer.perm = 1).map Answer.setfd

/-- What the producer is to be passed for a production. -/
def Production.granted (production : Production) : Paid where
  sets := Studio.granted production.sets
  actors := Studio.granted production.actors

/-- The loop of the director over the sets, or over the actors, from the index `i` on. The request
is in an array, too. -/
def askPermission : ℕ → Entries → List Answer → Option Entries
  | _, accp, [] => some accp
  | i, accp, answer :: answers =>
      if i < maxCount then
        (if answer.perm = 1 then accp.push answer.setfd else some accp).bind fun accp =>
          askPermission (i + 1) accp answers
      else none

/-- The producer: two counts in records, and the descriptors that follow. -/
def pay (setCount actorCount : Record) (descriptors : List ℤ) : Option Paid :=
  (fill id (readNumber setCount).toNat .empty descriptors).bind fun (sets, descriptors) =>
    (fill id (readNumber actorCount).toNat .empty descriptors).map fun (actors, _) =>
      { sets := sets.values, actors := actors.values }

namespace Director

def start : Director where
  setsAccp := .empty
  actorsAccp := .empty

def pass (director : Director) (namebuf : Record) : Option Paid :=
  let setCount := printNumber namebuf director.setsAccp.values.length
  let actorCount := printNumber setCount director.actorsAccp.values.length
  pay setCount actorCount (director.setsAccp.values ++ director.actorsAccp.values)

/-- A production, once its request is received. -/
def produce (director : Director) (production : Production) : Option (Director × Paid) :=
  (askPermission 0 director.setsAccp production.sets).bind fun setsAccp =>
    (askPermission 0 director.actorsAccp production.actors).bind fun actorsAccp =>
      (pass { setsAccp, actorsAccp } production.namebuf).map fun paid =>
        ({ setsAccp, actorsAccp }, paid)

/-- The payments of the productions that one director handles. -/
def payments (director : Director) : List Production → Option (List Paid)
  | [] => some []
  | production :: productions =>
      (director.produce production).bind fun (next, paid) =>
        (next.payments productions).map fun later => paid :: later

end Director

section Produce

variable {i : ℕ} {accp filled : Entries} {answers : List Answer} {director next : Director}
  {production : Production} {paid : Paid}

theorem granted_cons (answer : Answer) (answers : List Answer) :
    granted (answer :: answers) =
      if answer.perm = 1 then answer.setfd :: granted answers else granted answers := by
  rw [granted, List.filter_cons]
  split <;> simp_all [granted]

/-- The descriptors of those that give permission are put behind the ones that are there. -/
theorem askPermission_eq_some_iff (inside : i ≤ maxCount) :
    askPermission i accp answers = some filled ↔
      i + answers.length ≤ maxCount ∧ filled.values = accp.values ++ granted answers := by
  induction answers generalizing i accp with
  | nil => simp [askPermission, granted, inside, Entries.ext_iff, eq_comm]
  | cons answer answers ih =>
      rw [askPermission, granted_cons, List.length_cons]
      split
      case isTrue room =>
        have next : i + 1 + answers.length = i + (answers.length + 1) := by omega
        split
        case isTrue =>
          simp only [Option.bind_eq_some_iff, Entries.push_eq_some_iff, ih room, next]
          constructor
          · rintro ⟨pushed, first, fits, later⟩
            exact ⟨fits, by rw [later, first, List.append_assoc, List.singleton_append]⟩
          · rintro ⟨fits, stored⟩
            have ⟨pushed, first, later⟩ := Entries.exists_pushed stored
            exact ⟨pushed, first, fits, later⟩
        case isFalse => rw [Option.bind_some, ih room, next]
      case isFalse full =>
        apply iff_of_false (by simp)
        omega

theorem isInt_length (entries : Entries) : IsInt entries.values.length := by
  have fits := entries.fits
  rw [maxCount] at fits
  rw [IsInt]
  omega

theorem pass_eq (director : Director) (namebuf : Record) :
    director.pass namebuf =
      some { sets := director.setsAccp.values, actors := director.actorsAccp.values } := by
  have sets : fill id director.setsAccp.values.length .empty
      (director.setsAccp.values ++ director.actorsAccp.values) =
        some (director.setsAccp, director.actorsAccp.values) :=
    fill_eq_some_iff.mpr (by simp [Entries.empty])
  have actors : fill id director.actorsAccp.values.length .empty director.actorsAccp.values =
      some (director.actorsAccp, []) :=
    fill_eq_some_iff.mpr (by simp [Entries.empty])
  simp only [Director.pass, pay, readNumber_printNumber (isInt_length _), Int.toNat_natCast, sets,
    Option.bind_some, actors, Option.map_some]

theorem produce_eq_some_iff : director.produce production = some (next, paid) ↔
    (production.sets.length ≤ maxCount ∧ production.actors.length ≤ maxCount) ∧
      next.setsAccp.values = director.setsAccp.values ++ granted production.sets ∧
      next.actorsAccp.values = director.actorsAccp.values ++ granted production.actors ∧
      paid = { sets := next.setsAccp.values, actors := next.actorsAccp.values } := by
  simp only [Director.produce, Option.bind_eq_some_iff, pass_eq, Option.map_some,
    Option.some.injEq, Prod.mk.injEq, askPermission_eq_some_iff (Nat.zero_le _), Nat.zero_add]
  constructor
  · rintro ⟨setsAccp, sets, actorsAccp, actors, rfl, rfl⟩
    exact ⟨⟨sets.1, actors.1⟩, sets.2, actors.2, rfl⟩
  · rintro ⟨⟨sets, actors⟩, setsAccp, actorsAccp, rfl⟩
    exact ⟨next.setsAccp, ⟨sets, setsAccp⟩, next.actorsAccp, ⟨actors, actorsAccp⟩, rfl, rfl⟩

theorem length_granted_le (answers : List Answer) : (granted answers).length ≤ answers.length := by
  rw [granted, List.length_map]
  exact List.length_filter_le _ _

end Produce

section Run

variable {director next : Director} {production : Production} {productions : List Production}

def Director.IsEmpty (director : Director) : Prop :=
  director.setsAccp.values = [] ∧ director.actorsAccp.values = []

def Production.Fits (production : Production) : Prop :=
  production.sets.length ≤ maxCount ∧ production.actors.length ≤ maxCount

def Production.IsRefused (production : Production) : Prop :=
  Studio.granted production.sets = [] ∧ Studio.granted production.actors = []

/-- A production is paid as it should be when there is nothing on record before. Afterwards what it
was granted is on record. -/
theorem produce_granted_iff : director.produce production = some (next, production.granted) ↔
    production.Fits ∧ director.IsEmpty ∧ next.setsAccp.values = granted production.sets ∧
      next.actorsAccp.values = granted production.actors := by
  rw [produce_eq_some_iff, Production.granted, Paid.mk.injEq]
  constructor
  · rintro ⟨fits, sets, actors, setsPaid, actorsPaid⟩
    rw [← setsPaid, List.self_eq_append_left] at sets
    rw [← actorsPaid, List.self_eq_append_left] at actors
    exact ⟨fits, ⟨sets, actors⟩, setsPaid.symm, actorsPaid.symm⟩
  · rintro ⟨fits, ⟨noSets, noActors⟩, sets, actors⟩
    rw [noSets, noActors]
    exact ⟨fits, sets, actors, sets.symm, actors.symm⟩

theorem exists_produced (fits : production.Fits) (empty : director.IsEmpty) :
    ∃ next, director.produce production = some (next, production.granted) :=
  ⟨{ setsAccp := ⟨granted production.sets, (length_granted_le _).trans fits.1⟩
     actorsAccp := ⟨granted production.actors, (length_granted_le _).trans fits.2⟩ },
    produce_granted_iff.mpr ⟨fits, empty, rfl, rfl⟩⟩

theorem payments_from_eq_granted_iff :
    director.payments productions = some (productions.map Production.granted) ↔
      productions = [] ∨ director.IsEmpty ∧ (∀ production ∈ productions, production.Fits) ∧
        ∀ production ∈ productions.dropLast, production.IsRefused := by
  induction productions generalizing director with
  | nil => simp [Director.payments]
  | cons production productions ih =>
      have paid : director.payments (production :: productions) =
            some ((production :: productions).map Production.granted) ↔
          ∃ next, director.produce production = some (next, production.granted) ∧
            next.payments productions = some (productions.map Production.granted) := by
        simp [Director.payments, Option.bind_eq_some_iff]
      rw [paid, List.forall_mem_cons]
      cases productions with
      | nil =>
          simp only [Director.payments, List.map_nil, and_true, reduceCtorEq, false_or,
            List.dropLast_singleton]
          constructor
          · rintro ⟨next, produced⟩
            have ⟨fits, empty, _⟩ := produce_granted_iff.mp produced
            exact ⟨empty, ⟨fits, List.forall_mem_nil _⟩, List.forall_mem_nil _⟩
          · rintro ⟨empty, ⟨fits, _⟩, _⟩
            exact exists_produced fits empty
      | cons second productions =>
          simp only [ih, reduceCtorEq, false_or, List.dropLast_cons_cons, List.forall_mem_cons]
          constructor
          · rintro ⟨next, produced, nextEmpty, later, refused⟩
            have ⟨fits, empty, sets, actors⟩ := produce_granted_iff.mp produced
            exact ⟨empty, ⟨fits, later⟩, ⟨sets ▸ nextEmpty.1, actors ▸ nextEmpty.2⟩, refused⟩
          · rintro ⟨empty, ⟨fits, later⟩, first, refused⟩
            have ⟨next, produced⟩ := exists_produced fits empty
            have ⟨_, _, sets, actors⟩ := produce_granted_iff.mp produced
            exact ⟨next, produced, ⟨sets.trans first.1, actors.trans first.2⟩, later, refused⟩

end Run

/-- Each production's payments go to those who gave permission in it exactly when every request fits
and no production before the last one was given any permission. -/
theorem payments_eq_granted_iff (productions : List Production) :
    Director.start.payments productions = some (productions.map Production.granted) ↔
      (∀ production ∈ productions, production.Fits) ∧
        ∀ production ∈ productions.dropLast, production.IsRefused := by
  rw [payments_from_eq_granted_iff]
  constructor
  · rintro (rfl | ⟨-, conditions⟩)
    · simp
    · exact conditions
  · intro conditions
    exact Or.inr ⟨⟨rfl, rfl⟩, conditions⟩

def oneSet (setfd : ℤ) : Production where
  sets := [{ setfd, perm := 1 }]
  actors := []
  namebuf := Vector.replicate 30 0#8

/-- The set of the first production is paid again in the second one. -/
theorem first_set_paid_twice :
    Director.start.payments [oneSet 6, oneSet 9] ≠
      some [(oneSet 6).granted, (oneSet 9).granted] := by
  intro paid
  rcases payments_from_eq_granted_iff.mp paid with none | ⟨_, _, refused⟩
  · cases none
  · have first := (refused (oneSet 6) (by simp)).1
    revert first
    decide

end NetLab.Studio
