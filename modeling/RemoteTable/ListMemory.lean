import RemoteTable.CStrings
import RemoteTable.Memory

/-!
# `data.c`, `entry.c` and `list.c` on an explicit store

The same functions as in the modules on values, here with pointers followed,
blocks allocated, written and freed as the code does it. The loops take fuel:
running out of it means that the chain is cyclic, and the call never returns.
Whether an allocation succeeds is a parameter.
-/

namespace ListMemory

open CStrings Memory

/-- What stands in a block. The counter of a list is unbounded, as in `ListOps.ListT`. -/
inductive Block where
  | chars (s : CString)
  | bytes (bs : List Byte)
  | data (datasize : Int) (data : Option Nat)
  | entry (key value : Option Nat)
  | node (entry next : Option Nat)
  | list (size : Int) (head : Option Nat)
  | array (lists : List (Option Nat))
  | table (lists : Option Nat) (size : Int)
  deriving DecidableEq

abbrev Store := Heap Block

def loadChars (σ : Store) (p : Option Nat) : Except Fault CString := do
  match ← σ.load p with
  | .chars s => pure s
  | _ => throw .badBlock

def loadBytes (σ : Store) (p : Option Nat) : Except Fault (List Byte) := do
  match ← σ.load p with
  | .bytes bs => pure bs
  | _ => throw .badBlock

def loadData (σ : Store) (p : Option Nat) : Except Fault (Int × Option Nat) := do
  match ← σ.load p with
  | .data datasize data => pure (datasize, data)
  | _ => throw .badBlock

def loadEntry (σ : Store) (p : Option Nat) : Except Fault (Option Nat × Option Nat) := do
  match ← σ.load p with
  | .entry key value => pure (key, value)
  | _ => throw .badBlock

def loadNode (σ : Store) (p : Option Nat) : Except Fault (Option Nat × Option Nat) := do
  match ← σ.load p with
  | .node entry next => pure (entry, next)
  | _ => throw .badBlock

def loadList (σ : Store) (p : Option Nat) : Except Fault (Int × Option Nat) := do
  match ← σ.load p with
  | .list size head => pure (size, head)
  | _ => throw .badBlock

def malloc (ok : Bool) (σ : Store) (b : Block) : Option Nat × Store :=
  if ok then (some σ.next, σ.alloc b) else (none, σ)

def dataDestroy (σ : Store) (data : Option Nat) : Except Fault (Int × Store) :=
  match data with
  | none => pure (-1, σ)
  | some data => do
    let (_, buffer) ← loadData σ (some data)
    let σ ← match buffer with
      | none => pure σ
      | some buffer => σ.free buffer
    let σ ← σ.free data
    pure (0, σ)

/-- `mem` and `buffer` say whether the two allocations succeed. -/
def dataDup (mem buffer : Bool) (σ : Store) (data : Option Nat) :
    Except Fault (Option Nat × Store) :=
  match data with
  | none => pure (none, σ)
  | some data => do
    let (datasize, bytes) ← loadData σ (some data)
    if datasize ≤ 0 then pure (none, σ)
    else match bytes, malloc mem σ (.data datasize none) with
      | none, _ => pure (none, σ)
      | some _, (none, σ) => pure (none, σ)
      | some bytes, (some dup, σ) => match malloc buffer σ (.bytes []) with
        | (none, σ) => do
          let r ← dataDestroy σ (some dup)
          pure (none, r.2)
        | (some copy, σ) => do
          let σ ← σ.store dup (.data datasize (some copy))
          let bs ← loadBytes σ (some bytes)
          -- memcpy reads datasize bytes of the old block
          if datasize ≤ bs.length then do
            let σ ← σ.store copy (.bytes (bs.take datasize.toNat))
            pure (some dup, σ)
          else throw .outOfBounds

def entryCreate (mem : Bool) (σ : Store) (key data : Option Nat) : Option Nat × Store :=
  match key, data with
  | some key, some data => malloc mem σ (.entry (some key) (some data))
  | _, _ => (none, σ)

def entryDestroy (σ : Store) (entry : Option Nat) : Except Fault (Int × Store) :=
  match entry with
  | none => pure (-1, σ)
  | some entry => do
    let (key, value) ← loadEntry σ (some entry)
    match key, value with
    | some key, some value => do
      let r ← dataDestroy σ (some value)
      let σ ← r.2.free key
      let σ ← σ.store entry (.entry none (some value))
      let σ ← σ.free entry
      pure (0, σ)
    | _, _ => pure (-1, σ)

def entryCompare (σ : Store) (entry1 entry2 : Option Nat) : Except Fault Int :=
  match entry1, entry2 with
  | some entry1, some entry2 => do
    let (key1, _) ← loadEntry σ (some entry1)
    let (key2, _) ← loadEntry σ (some entry2)
    match key1, key2 with
    | some key1, some key2 => do
      let k1 ← loadChars σ (some key1)
      let k2 ← loadChars σ (some key2)
      let result := strcmp k1 k2
      pure (if result = 0 then 0 else if result > 0 then 1 else -1)
    | _, _ => pure (-2)
  | _, _ => pure (-2)

def listCreate (mem : Bool) (σ : Store) : Option Nat × Store := malloc mem σ (.list 0 none)

def nodeDestroy : Nat → Store → Option Nat → Except Fault (Int × Store)
  | 0, _, _ => throw .endless
  | _ + 1, σ, none => pure (-1, σ)
  | fuel + 1, σ, some node => do
    let (_, next) ← loadNode σ (some node)
    let σ ← match next with
      | none => pure σ
      | some next => do
        let r ← nodeDestroy fuel σ (some next)
        pure r.2
    let (entry, _) ← loadNode σ (some node)
    let r ← entryDestroy σ entry
    let σ ← r.2.free node
    pure (0, σ)

def listDestroy (σ : Store) (list : Option Nat) : Except Fault (Int × Store) :=
  match list with
  | none => pure (-1, σ)
  | some list => do
    let (_, head) ← loadList σ (some list)
    match head with
    | none => pure (-1, σ)
    | some head => do
      let r ← nodeDestroy σ.next σ (some head)
      let σ ← r.2.free list
      pure (r.1, σ)

/-- `while(comp < 0 && current->next)` of `list_add`. -/
def addLoop (σ : Store) (entry : Nat) : Nat → Nat → Int → Except Fault (Nat × Int)
  | 0, _, _ => throw .endless
  | fuel + 1, current, comp =>
    if comp < 0 then do
      let (_, next) ← loadNode σ (some current)
      match next with
      | none => pure (current, comp)
      | some next => do
        let (other, _) ← loadNode σ (some next)
        let comp ← entryCompare σ other (some entry)
        addLoop σ entry fuel next comp
    else pure (current, comp)

/-- `entry_destroy(current->entry)` and `current->entry = entry`. -/
def replaceEntry (σ : Store) (current entry : Nat) : Except Fault (Int × Store) := do
  let (old, _) ← loadNode σ (some current)
  let r ← entryDestroy σ old
  let (_, next) ← loadNode r.2 (some current)
  let σ ← r.2.store current (.node (some entry) next)
  pure (1, σ)

/-- `list->size++`. -/
def countUp (σ : Store) (list : Nat) : Except Fault Store := do
  let (size, head) ← loadList σ (some list)
  σ.store list (.list (size + 1) head)

/-- A new node behind `current`, with `next` behind it. -/
def appendNode (mem : Bool) (σ : Store) (list current entry : Nat) (next : Option Nat) :
    Except Fault (Int × Store) :=
  match malloc mem σ (.node (some entry) next) with
  | (none, σ) => pure (-1, σ)
  | (some new, σ) => do
    let (old, _) ← loadNode σ (some current)
    let σ ← σ.store current (.node old (some new))
    let σ ← countUp σ list
    pure (0, σ)

def listAdd (mem : Bool) (σ : Store) (list entry : Option Nat) : Except Fault (Int × Store) :=
  match list, entry with
  | some list, some entry => do
    let (size, head) ← loadList σ (some list)
    match head with
    | none => match malloc mem σ (.node (some entry) none) with
      | (none, σ) => pure (-1, σ)
      | (some new, σ) => do
        let σ ← σ.store list (.list size (some new))
        let σ ← countUp σ list
        pure (0, σ)
    | some head => do
      let (first, _) ← loadNode σ (some head)
      let comp ← entryCompare σ first (some entry)
      if comp = 0 then replaceEntry σ head entry
      else if comp > 0 then match malloc mem σ (.node (some entry) (some head)) with
        | (none, σ) => pure (-1, σ)
        | (some new, σ) => do
          let σ ← σ.store list (.list size (some new))
          let σ ← countUp σ list
          pure (0, σ)
      else do
        let (current, comp) ← addLoop σ entry σ.next head comp
        let (_, next) ← loadNode σ (some current)
        if comp = 0 then replaceEntry σ current entry
        else if comp > 0 then appendNode mem σ list current entry next
        else if next = none then appendNode mem σ list current entry none
        else pure (-1, σ)
  | _, _ => pure (-1, σ)

/-- The recursion of `remove_node`. -/
def removeNode : Nat → Store → Option Nat → Except Fault (Int × Store)
  | 0, _, _ => throw .endless
  | _ + 1, σ, none => pure (-1, σ)
  | fuel + 1, σ, some node => do
    let (entry, next) ← loadNode σ (some node)
    match next with
    | none => do
      let r ← entryDestroy σ entry
      let σ ← r.2.store node (.node none none)
      pure (0, σ)
    | some next => do
      let (other, after) ← loadNode σ (some next)
      let σ ← σ.store node (.node other (some next))
      let σ ← σ.store next (.node entry after)
      removeNode fuel σ (some next)

/-- `strcmp(current->entry->key, key)`. -/
def keyCompare (σ : Store) (current : Option Nat) (key : Nat) : Except Fault Int := do
  let (entry, _) ← loadNode σ current
  let (own, _) ← loadEntry σ entry
  let k ← loadChars σ own
  let k' ← loadChars σ (some key)
  pure (strcmp k k')

/-- `while(comp != 0 && current->next)` of `list_remove` and `list_get`. -/
def keyLoop (σ : Store) (key : Nat) : Nat → Nat → Int → Except Fault (Nat × Int)
  | 0, _, _ => throw .endless
  | fuel + 1, current, comp =>
    if comp ≠ 0 then do
      let (_, next) ← loadNode σ (some current)
      match next with
      | none => pure (current, comp)
      | some next => do
        let comp ← keyCompare σ (some next) key
        keyLoop σ key fuel next comp
    else pure (current, comp)

/-- `remove_node(node)` and, if it worked, `list->size -= 1`. -/
def removeCounted (σ : Store) (list : Nat) (node : Option Nat) : Except Fault (Int × Store) := do
  let r ← removeNode σ.next σ node
  if r.1 = 0 then do
    let (size, head) ← loadList r.2 (some list)
    let σ ← r.2.store list (.list (size - 1) head)
    pure (0, σ)
  else pure (-1, r.2)

def listRemove (σ : Store) (list key : Option Nat) : Except Fault (Int × Store) :=
  match list, key with
  | some list, some key => do
    let (_, head) ← loadList σ (some list)
    let comp ← keyCompare σ head key
    if comp = 0 then removeCounted σ list head
    else match head with
      | none => throw .nullPointer
      | some head => do
        let (current, comp) ← keyLoop σ key σ.next head comp
        if comp ≠ 0 then pure (1, σ)
        else removeCounted σ list (some current)
  | _, _ => pure (-1, σ)

def listGet (σ : Store) (list key : Option Nat) : Except Fault (Option Nat) :=
  match list, key with
  | some list, some key => do
    let (_, head) ← loadList σ (some list)
    let comp ← keyCompare σ head key
    match head with
    | none => throw .nullPointer
    | some head => do
      let (current, comp) ← keyLoop σ key σ.next head comp
      let (entry, _) ← loadNode σ (some current)
      pure (if comp = 0 then entry else none)
  | _, _ => pure none

def listSize (σ : Store) (list : Option Nat) : Except Fault Int :=
  match list with
  | none => pure (-1)
  | some list => do
    let (size, _) ← loadList σ (some list)
    pure size

end ListMemory
