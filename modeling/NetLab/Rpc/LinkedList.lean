import NetLab.Posix.Text
import NetLab.Structures.LinkedList
import Mathlib.Algebra.BigOperators.Group.List.Basic
import Mathlib.Data.BitVec

/-!
# The list that is added

`list_client.c` builds a linked list, one call of `mknode` for each number, and `list_server.c` adds
what it finds from its argument on. The lists are in the memories of two processes; what the second
one gets has the same numbers.
-/

namespace NetLab.Rpc

open NetLab.Posix NetLab.Structures

/-- What a node holds beside its pointer. Nothing is ever stored in `y`. -/
structure Fields where
  x : BitVec 32
  y : BitVec 32

/-- Addresses are those of the client, or of the server. -/
structure Memory (Address : Type*) where
  heap : Heap Address Fields
  head : Option Address

/-- A call of `mknode`, with what `malloc` returns for it and what is there in the place of `y`. -/
structure Making (Address : Type*) where
  x : BitVec 32
  block : Option Address
  y : BitVec 32

section Client

variable {Address : Type*}

/-- `while( temp->next!=NULL ) temp = temp->next;` -/
def lastNode (heap : Heap Address Fields) : ℕ → Address → Option Address
  | 0, _ => none
  | fuel + 1, temp =>
      (heap temp).bind fun node =>
        match node.next with
        | none => some temp
        | some next => lastNode heap fuel next

variable [DecidableEq Address]

/-- Storing through the null pointer ends the program. -/
def mknode (fuel : ℕ) (memory : Memory Address) (making : Making Address) :
    Option (Memory Address) :=
  let made := { value := { x := making.x, y := making.y }, next := none }
  match memory.head with
  | none =>
      making.block.map fun block =>
        { heap := Function.update memory.heap block (some made), head := some block }
  | some first =>
      (lastNode memory.heap fuel first).bind fun temp =>
        making.block.bind fun block =>
          (memory.heap temp).map fun node =>
            { memory with
              heap := Function.update (Function.update memory.heap block (some made)) temp
                (some { node with next := some block }) }

/-- The calls of `mknode` in `list_1`. -/
def makeList (fuel : ℕ) : Memory Address → List (Making Address) → Option (Memory Address) :=
  List.foldlM (mknode fuel)

/-- `malloc` always succeeds, with a block that is not in use. -/
structure Allocated (heap : Heap Address Fields) (makings : List (Making Address)) : Prop where
  distinct : (makings.map Making.block).Nodup
  free : ∀ making ∈ makings, ∃ block, making.block = some block ∧ heap block = none

end Client

section Server

variable {Address : Type*}

/-- `add_list_1_svc`: the result, and what is printed on the way to it. -/
def addList (heap : Heap Address Fields) :
    ℕ → Option Address → BitVec 32 → List Byte → Option (BitVec 32 × List Byte)
  | _, none, result, printed => some (result, printed ++ literal "\x7d\n")
  | 0, some _, _, _ => none
  | fuel + 1, some temp, result, printed =>
      (heap temp).bind fun node =>
        addList heap fuel node.next (result + node.value.x)
          (printed ++ decimal node.value.x.toInt ++ literal ", ")

def addListSvc (fuel : ℕ) (heap : Heap Address Fields) (argp : Option Address) :
    Option (BitVec 32 × List Byte) :=
  addList heap fuel argp 0 (literal "Numbers are: \x7b ")

end Server

/-! ## The lists -/

section Lists

variable {Address : Type*} {heap : Heap Address Fields} {start : Option Address}
  {cells : List (Address × Fields)}

def numbers (cells : List (Address × Fields)) : List (BitVec 32) :=
  cells.map fun cell => cell.2.x

theorem lastNode_eq {first last : Address} {value : Fields} {fuel : ℕ}
    (list : Segment heap (some first) (cells ++ [(last, value)]) none)
    (enough : cells.length < fuel) : lastNode heap fuel first = some last := by
  induction cells generalizing first fuel with
  | nil =>
      rcases segment_single_iff.mp list with ⟨same, here⟩
      cases same
      cases fuel with
      | zero => cases enough
      | succ fuel => rw [lastNode, here, Option.bind_some]
  | cons cell cells ih =>
      cases fuel with
      | zero => cases enough
      | succ fuel =>
          cases list with
          | @cons _ _ next _ _ here rest =>
              rw [lastNode, here, Option.bind_some]
              cases next with
              | none =>
                  cases cells <;> cases rest
              | some next => exact ih rest (Nat.lt_of_succ_lt_succ enough)

theorem addList_eq {result : BitVec 32} {printed : List Byte} {fuel : ℕ}
    (list : Segment heap start cells none) (enough : cells.length ≤ fuel) :
    addList heap fuel start result printed =
      some (result + (numbers cells).sum, printed ++
        (numbers cells).flatMap (fun x => decimal x.toInt ++ literal ", ") ++
          literal "\x7d\n") := by
  induction cells generalizing start result printed fuel with
  | nil =>
      cases list
      simp [addList, numbers]
  | cons cell cells ih =>
      cases fuel with
      | zero => cases enough
      | succ fuel =>
          cases list with
          | cons here rest =>
              rw [addList, here, Option.bind_some, ih rest (Nat.le_of_succ_le_succ enough)]
              simp [numbers, add_assoc]

/-- The loop only ends on a list. -/
theorem exists_segment {result : BitVec 32} {printed : List Byte} {fuel : ℕ}
    (ends : (addList heap fuel start result printed).isSome = true) :
    ∃ cells, Segment heap start cells none := by
  induction fuel generalizing start result printed with
  | zero =>
      cases start with
      | none => exact ⟨[], .nil none⟩
      | some temp => cases ends
  | succ fuel ih =>
      cases start with
      | none => exact ⟨[], .nil none⟩
      | some temp =>
          cases here : heap temp with
          | none =>
              rw [addList, here] at ends
              cases ends
          | some node =>
              rw [addList, here, Option.bind_some] at ends
              rcases ih ends with ⟨cells, rest⟩
              exact ⟨(temp, node.value) :: cells, .cons here rest⟩

section Making

variable [DecidableEq Address] {memory : Memory Address} {making : Making Address}
  {makings : List (Making Address)} {fuel : ℕ}

/-- A call of `mknode` adds a number at the end, in the block that it is given. -/
theorem mknode_eq {block : Address} (list : Segment memory.heap memory.head cells none)
    (allocated : making.block = some block) (free : memory.heap block = none)
    (enough : cells.length ≤ fuel) :
    ∃ next, mknode fuel memory making = some next ∧
      Segment next.heap next.head (cells ++ [(block, { x := making.x, y := making.y })]) none ∧
      ∀ other, other ≠ block → memory.heap other = none → next.heap other = none := by
  rcases memory with ⟨heap, head⟩
  rcases List.eq_nil_or_concat cells with rfl | ⟨front, ⟨last, value⟩, rfl⟩
  · cases list
    refine ⟨_, by rw [mknode, allocated, Option.map_some], ?_, ?_⟩
    · rw [List.nil_append, segment_single_iff]
      exact ⟨rfl, Function.update_self _ _ _⟩
    · intro other apart unused
      exact (Function.update_of_ne apart _ _).trans unused
  · rw [List.concat_eq_append] at list enough ⊢
    rcases list.split with ⟨middle, _, back⟩
    rcases segment_single_iff.mp back with ⟨_, here⟩
    cases head with
    | none => cases front <;> cases list
    | some first =>
        have found : lastNode heap fuel first = some last := by
          apply lastNode_eq list
          simpa using enough
        have called : mknode fuel { heap, head := some first } making = some {
            heap := Function.update (Function.update heap block
              (some { value := { x := making.x, y := making.y }, next := none })) last
                (some { value, next := some block })
            head := some first } := by
          simp only [mknode, found, allocated, Option.bind_some, Option.map_eq_some_iff]
          exact ⟨_, here, rfl⟩
        refine ⟨_, called, list.extend free, ?_⟩
        intro other apart unused
        have elsewhere : other ≠ last := by
          rintro rfl
          cases unused.symm.trans here
        simp only [Function.update_of_ne elsewhere, Function.update_of_ne apart]
        exact unused

theorem makeList_eq (list : Segment memory.heap memory.head cells none)
    (allocated : Allocated memory.heap makings) (enough : cells.length + makings.length ≤ fuel) :
    ∃ final made, makeList fuel memory makings = some final ∧
      Segment final.heap final.head made none ∧
      numbers made = numbers cells ++ makings.map Making.x := by
  induction makings generalizing memory cells with
  | nil => exact ⟨memory, cells, rfl, list, by simp⟩
  | cons making makings ih =>
      rcases allocated with ⟨distinct, free⟩
      rw [List.map_cons, List.nodup_cons] at distinct
      rw [List.forall_mem_cons] at free
      rw [List.length_cons] at enough
      rcases free.1 with ⟨block, given, unused⟩
      rcases mknode_eq list given unused (by omega : cells.length ≤ fuel) with
        ⟨next, called, longer, still⟩
      have later : Allocated next.heap makings := by
        refine ⟨distinct.2, ?_⟩
        intro other mem
        rcases free.2 other mem with ⟨place, given', unused'⟩
        refine ⟨place, given', still place ?_ unused'⟩
        rintro rfl
        exact distinct.1 (List.mem_map.mpr ⟨other, mem, given'.trans given.symm⟩)
      have room : (cells ++ [(block, { x := making.x, y := making.y : Fields })]).length +
          makings.length ≤ fuel := by
        rw [List.length_append, List.length_singleton]
        omega
      rcases ih longer later room with ⟨final, made, rest, whole, same⟩
      refine ⟨final, made, ?_, whole, ?_⟩
      · rw [makeList, List.foldlM_cons, called]
        exact rest
      · rw [same]
        simp [numbers]

end Making

end Lists

/-- The calls of `mknode` make a list of their numbers, in order, in whatever blocks. From any
memory that holds a list of the same numbers, the server returns their sum, wrapped as an `int`, and
prints them; and its loop ends for no other memory. -/
theorem list_added {Client Server : Type*} [DecidableEq Client] {memory : Memory Client}
    {makings : List (Making Client)} {fuel : ℕ} (empty : memory.head = none)
    (allocated : Allocated memory.heap makings) (enough : makings.length ≤ fuel) :
    ∃ final made, makeList fuel memory makings = some final ∧
      Segment final.heap final.head made none ∧ numbers made = makings.map Making.x ∧
      ∀ (heap : Heap Server Fields) (argp : Option Server),
        (∀ cells, Segment heap argp cells none → numbers cells = numbers made →
          addListSvc fuel heap argp = some ((makings.map Making.x).sum,
            literal "Numbers are: \x7b " ++
              (makings.map Making.x).flatMap (fun x => decimal x.toInt ++ literal ", ") ++
              literal "\x7d\n")) ∧
        ((∃ rounds, (addListSvc rounds heap argp).isSome = true) ↔
          ∃ cells, Segment heap argp cells none) := by
  have nothing : Segment memory.heap memory.head [] none := by
    rw [empty]
    exact .nil none
  rcases makeList_eq nothing allocated (by simpa using enough) with
    ⟨final, made, called, list, appended⟩
  have same : numbers made = makings.map Making.x := appended
  refine ⟨final, made, called, list, same, ?_⟩
  intro heap argp
  constructor
  case left =>
    intro cells received equal
    have length : cells.length = makings.length := by
      have lengths := congrArg List.length (equal.trans same)
      rwa [numbers, List.length_map, List.length_map] at lengths
    rw [addListSvc, addList_eq received (length.trans_le enough), equal, same, zero_add]
  case right =>
    constructor
    case mp =>
      rintro ⟨rounds, ends⟩
      exact exists_segment ends
    case mpr =>
      rintro ⟨cells, received⟩
      refine ⟨cells.length, ?_⟩
      rw [addListSvc, addList_eq received le_rfl]
      rfl

/-- The four numbers of `list_1`. -/
def fourMakings : List (Making ℕ) :=
  [{ x := 1, block := some 7, y := 0 }, { x := 2, block := some 3, y := 9 },
    { x := 102, block := some 5, y := 0 }, { x := 40, block := some 4, y := 0 }]

theorem list_added_four :
    ∃ final made, makeList 4 { heap := fun _ => none, head := none } fourMakings = some final ∧
      Segment final.heap final.head made none ∧ numbers made = [1, 2, 102, 40] := by
  have allocated : Allocated (fun _ : ℕ => (none : Option (Node ℕ Fields))) fourMakings :=
    ⟨by decide, by simp [fourMakings]⟩
  rcases @list_added ℕ ℕ _ { heap := fun _ => none, head := none } fourMakings 4 rfl allocated
    (by decide) with ⟨final, made, called, list, same, _⟩
  exact ⟨final, made, called, list, same⟩

end NetLab.Rpc
