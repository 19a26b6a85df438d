import NetLab.Nfs.Descriptors

/-!
# What a listing replies

`nfs_ls_1_svc` appends one name after the other to the text in its result. What it
replies is right as long as the text and its terminator have room in the buffer.
-/

namespace NetLab.Nfs

open NetLab.Posix

def visible (names : List (List Byte)) : List (List Byte) :=
  names.filter fun name => name.head? ≠ some 0x2E#8

/-- The text of a listing, one name on a line. -/
def listing (names : List (List Byte)) : List Byte :=
  (visible names).flatMap fun name => name ++ [0xA#8]

/-- The reply has the number of the entries and their names, and nothing was stored behind the
buffer. -/
structure ListsAll (names : List (List Byte)) (outcome : ReadOutcome) : Prop where
  size : outcome.result.size.toNat = (visible names).length
  inside : ∀ index ∈ outcome.stored, index < 1024
  terminated : 0#8 ∈ outcome.result.buffer.toList
  text : cString outcome.result.buffer.toList = listing names

/-- The names that are listed, each with a newline, leave room for the terminator. -/
def ListingFits (names : List (List Byte)) : Prop :=
  ((visible names).map fun name => name.length + 1).sum < 1024

instance (names : List (List Byte)) : Decidable (ListingFits names) :=
  inferInstanceAs (Decidable (_ < _))

section Listing

variable {names : List (List Byte)} {answers : LsAnswers} {argp result : Bufnode}
  {machine : Machine}

theorem visible_cons (name : List Byte) (names : List (List Byte)) :
    visible (name :: names) =
      if name.head? = some 0x2E#8 then visible names else name :: visible names := by
  by_cases hidden : name.head? = some 0x2E#8 <;> simp [visible, hidden]

theorem foldl_listName (text : List Byte) (size : BitVec 32) (names : List (List Byte)) :
    names.foldl listName (text, size) =
      (text ++ listing names, size + BitVec.ofNat 32 (visible names).length) := by
  induction names generalizing text size with
  | nil => simp [listing, visible]
  | cons name names ih =>
      rw [List.foldl_cons, listName, listing, visible_cons]
      split
      case isTrue => exact ih text size
      case isFalse =>
        rw [ih, List.flatMap_cons, List.length_cons, BitVec.ofNat_add, listing]
        simp only [List.append_assoc, BitVec.add_assoc, BitVec.add_comm]

theorem length_listing (names : List (List Byte)) :
    (listing names).length = ((visible names).map fun name => name.length + 1).sum := by
  simp only [listing, List.length_flatMap, List.length_append, List.length_singleton]

theorem listingFits_iff : ListingFits names ↔ (listing names).length < 1024 := by
  rw [ListingFits, length_listing]

theorem length_visible_le : (visible names).length ≤ (listing names).length := by
  rw [length_listing]
  induction visible names with
  | nil => exact le_rfl
  | cons name names ih =>
      rw [List.length_cons, List.map_cons, List.sum_cons]
      omega

theorem plain_listing (plain : ∀ name ∈ names, 0#8 ∉ name) : 0#8 ∉ listing names := by
  intro zero
  rcases List.mem_flatMap.mp zero with ⟨name, listed, inside⟩
  rcases List.mem_append.mp inside with early | last
  · exact plain name (List.mem_filter.mp listed).1 early
  · cases List.mem_singleton.mp last

/-- A listing of a directory that can be opened. -/
theorem nfsLs1Svc_listed (accessible : answers.accessible = true) (opens : answers.opens = true)
    (directory : (machine.directoryAt argp.path).isSome = true) :
    nfsLs1Svc answers argp result machine =
      some (result.reply (listing answers.names) (BitVec.ofNat 32 (visible answers.names).length)
        (machine.opendir true argp.path).2) := by
  have ⟨allowed, kind⟩ := ls_checks_iff.mp (Bool.and_eq_true_iff.mpr ⟨accessible, directory⟩)
  have opened : ¬ (machine.opendir true argp.path).1 < 0 := by
    rw [Machine.opendir_neg_iff, directory]
    decide
  simp only [nfsLs1Svc, if_neg allowed, if_pos kind, opens, if_neg opened, foldl_listName,
    List.nil_append, BitVec.zero_add]

/-- The terminator is stored behind the text. -/
theorem fits_of_inside (accessible : answers.accessible = true) (opens : answers.opens = true)
    (directory : (machine.directoryAt argp.path).isSome = true) {outcome : ReadOutcome}
    (returns : nfsLs1Svc answers argp result machine = some outcome)
    (inside : ∀ index ∈ outcome.stored, index < 1024) : ListingFits answers.names := by
  rw [nfsLs1Svc_listed accessible opens directory, Option.some.injEq] at returns
  rw [listingFits_iff]
  apply inside
  rw [← returns]
  exact List.mem_range.mpr (Nat.lt_succ_self _)

end Listing

/-- The listing of a readable directory is complete, and stays inside the buffer, exactly when the
names that are listed fit into it. -/
theorem listsAll_iff_fits (answers : LsAnswers) (argp result : Bufnode) (machine : Machine)
    (accessible : answers.accessible = true) (opens : answers.opens = true)
    (directory : (machine.directoryAt argp.path).isSome = true)
    (plain : ∀ name ∈ answers.names, 0#8 ∉ name) :
    (∃ outcome, nfsLs1Svc answers argp result machine = some outcome ∧
        ListsAll answers.names outcome) ↔ ListingFits answers.names := by
  constructor
  · rintro ⟨outcome, returns, listed⟩
    exact fits_of_inside accessible opens directory returns listed.inside
  · intro fits
    rw [listingFits_iff] at fits
    have few : (visible answers.names).length < 2 ^ 32 :=
      (length_visible_le.trans_lt fits).trans (by decide)
    have room : (listing answers.names ++ [0#8]).length ≤ 1024 := by
      rw [List.length_append, List.length_singleton]
      exact fits
    refine ⟨_, nfsLs1Svc_listed accessible opens directory, ?_⟩
    constructor
    case size => exact Nat.mod_eq_of_lt few
    case inside =>
      intro index stored
      exact (List.mem_range.mp stored).trans_le fits
    case terminated =>
      simp only [Bufnode.reply, Bufnode.print, toList_storePrefix room]
      simp
    case text => exact cString_storePrefix_text fits (plain_listing plain) result.buffer

def lsAnswers (names : List (List Byte)) : LsAnswers where
  accessible := true
  opens := true
  names

theorem listsAll_one :
    ∃ outcome, nfsLs1Svc (lsAnswers [literal ".", literal "..", literal "notes"]) Bufnode.initial
        Bufnode.initial oneDirectory = some outcome ∧
      ListsAll [literal ".", literal "..", literal "notes"] outcome :=
  (listsAll_iff_fits (lsAnswers [literal ".", literal "..", literal "notes"]) Bufnode.initial
    Bufnode.initial oneDirectory rfl rfl rfl (by decide)).mpr (by decide)

def longNames : List (List Byte) :=
  (List.range 5).map fun index => List.replicate 254 0x61#8 ++ [digitByte index]

/-- The listing of five long names is stored behind the buffer. -/
theorem longNames_exceed :
    longNames.Nodup ∧ (∀ name ∈ longNames, 0#8 ∉ name ∧ 0xA#8 ∉ name ∧ name.length = 255) ∧
      ¬ ∃ outcome, nfsLs1Svc (lsAnswers longNames) Bufnode.initial Bufnode.initial oneDirectory =
          some outcome ∧ ListsAll longNames outcome := by
  have listed : visible longNames = longNames := by decide +kernel
  refine ⟨by decide +kernel, by decide +kernel, ?_⟩
  rintro ⟨outcome, returns, all⟩
  have fits : ListingFits (lsAnswers longNames).names :=
    fits_of_inside rfl rfl rfl returns all.inside
  change ((visible longNames).map fun name => name.length + 1).sum < 1024 at fits
  rw [listed] at fits
  revert fits
  decide +kernel

end NetLab.Nfs
