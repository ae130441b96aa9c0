/-
Module: Dedup.ScanMemory
Purpose: The scan on the heap of the process.  Every structure that `map.c`, `alist.c`, `queue.c`
  and `visit_entry` allocate is a block, the stream that `fopen` allocates is one, a pointer is the
  address of one, and the functions read, write, allocate and free blocks in the order of the
  source; what is printed is read as well.  An access to a block that was freed, or freeing a block
  twice, is a fault.
Imports: Dedup.AList, Dedup.Duplicates, Dedup.Lib.IntrusiveTree, Dedup.Lib.TailQueue
Trusted boundary: allocation succeeds; rbtree(3) and queue(3) as intrusive structures over the heap;
  a stream is one block, which `fclose` gives back
Main exports: Record, Block, metadataDup, freeMetadata, metadataFromEntry, visitedTreeInsert,
  insertSection, forElements, recordSection, fileEntryQueueAppend, fileEntryNext, freeVisitedTree,
  freeDuplicateTree
-/
import Dedup.AList
import Dedup.Duplicates
import Dedup.Lib.IntrusiveTree
import Dedup.Lib.TailQueue

namespace Dedup.ScanMemory

open Heap IntrusiveTree

/-! ### Blocks -/

/-- `FileMetadata` as it lies in memory: its path is the address of a string. -/
structure Record where
  device : Int
  inode : Nat
  nlink : Nat
  flags : Nat
  cloneId : Nat
  size : Nat
  path : Addr
  sha256 : Digest
  first : Int
  last : Int
deriving DecidableEq, Repr

/-- `FileEntry` as it lies in memory, with its link in the queue. -/
structure EntryRecord where
  path : Addr
  device : Int
  inode : Nat
  nlink : Nat
  flags : Nat
  size : Nat
  entries : Option Addr
deriving DecidableEq, Repr

/-- What a block holds.  A `CharNode` of the first level never has its `fm` set or read. -/
inductive Block where
  | path (string : Path)
  | stream
  | metadata (fm : Record)
  | entry (fe : EntryRecord)
  | queueHead (first last : Option Addr)
  | rbTree (nodes : List Addr)
  | deviceNode (d : Int) (children : List Addr)
  | sizeNode (s : Nat) (children : List Addr)
  | firstNode (c : Int) (children : List Addr)
  | lastNode (c : Int) (fm : Option Addr) (children : List Addr)
  | metadataNode (fm : Record)
  | listNode (sha256 : Digest) (list : Addr)
  | alist (size capacity : Nat) (elements : Addr)
  | elements (slots : Slots.Block (Option Addr))
  | idCountNode (id count : Nat) (fm : Addr)
deriving DecidableEq, Repr

/-- A `FileMetadata *`: a block of its own, or the field of a `FileMetadataNode`. -/
inductive MetadataPtr where
  | record (fm : Addr)
  | field (node : Addr)
deriving DecidableEq, Repr

/-- The record of the model, with its path in a block of its own. -/
def recordOf (fm : FileMetadata) (path : Addr) : Record where
  device := fm.device
  inode := fm.inode
  nlink := fm.nlink
  flags := fm.flags
  cloneId := fm.cloneId
  size := fm.size
  path := path
  sha256 := fm.sha256
  first := fm.first
  last := fm.last

/-- A record with the string its path points to. -/
def Record.read (fm : Record) (path : Path) : FileMetadata where
  device := fm.device
  inode := fm.inode
  nlink := fm.nlink
  flags := fm.flags
  cloneId := fm.cloneId
  size := fm.size
  path := path
  sha256 := fm.sha256
  first := fm.first
  last := fm.last

/-- An entry with the string its path points to. -/
def EntryRecord.read (fe : EntryRecord) (path : Path) : FileEntry where
  path := path
  device := fe.device
  inode := fe.inode
  nlink := fe.nlink
  flags := fe.flags
  size := fe.size

@[simp] theorem recordOf_read (fm : FileMetadata) (path : Addr) :
    (recordOf fm path).read fm.path = fm := rfl

@[simp] theorem recordOf_sha256 (fm : FileMetadata) (path : Addr) :
    (recordOf fm path).sha256 = fm.sha256 := rfl

/-- An entry of the model, with its path in a block of its own. -/
def entryOf (fe : FileEntry) (path : Addr) (entries : Option Addr) : EntryRecord where
  path := path
  device := fe.device
  inode := fe.inode
  nlink := fe.nlink
  flags := fe.flags
  size := fe.size
  entries := entries

@[simp] theorem entryOf_read (fe : FileEntry) (path : Addr) (entries : Option Addr) :
    (entryOf fe path entries).read fe.path = fe := rfl

/-! ### What a block is taken for -/

namespace Block

def path? : Block → Option Path
  | .path string => some string
  | _ => none

def stream? : Block → Option Unit
  | .stream => some ()
  | _ => none

def metadata? : Block → Option Record
  | .metadata fm => some fm
  | _ => none

def metadataNode? : Block → Option Record
  | .metadataNode fm => some fm
  | _ => none

def entry? : Block → Option EntryRecord
  | .entry fe => some fe
  | _ => none

def listNode? : Block → Option (Digest × Addr)
  | .listNode sha256 list => some (sha256, list)
  | _ => none

def alist? : Block → Option (Nat × Nat × Addr)
  | .alist size capacity block => some (size, capacity, block)
  | _ => none

def elements? : Block → Option (Slots.Block (Option Addr))
  | .elements slots => some slots
  | _ => none

def idCountNode? : Block → Option (Nat × Nat × Addr)
  | .idCountNode id count fm => some (id, count, fm)
  | _ => none

/-- `compare_device_key` and `compare_device_node` compare `d`. -/
def deviceKey : Block → Option Int
  | .deviceNode d _ => some d
  | _ => none

def sizeKey : Block → Option Nat
  | .sizeNode s _ => some s
  | _ => none

def firstKey : Block → Option Int
  | .firstNode c _ => some c
  | _ => none

def lastKey : Block → Option Int
  | .lastNode c _ _ => some c
  | _ => none

def metadataKey : Block → Option Digest
  | .metadataNode fm => some fm.sha256
  | _ => none

def listKey : Block → Option Digest
  | .listNode sha256 _ => some sha256
  | _ => none

def idCountKey : Block → Option Nat
  | .idCountNode id _ _ => some id
  | _ => none

end Block

/-- An `rb_tree_t` that was allocated by itself. -/
def treeRoot : Root Block Unit where
  pack _ nodes := .rbTree nodes
  view
    | .rbTree nodes => some ((), nodes)
    | _ => none
  view_pack _ _ := rfl

/-- The field `children` of a `DeviceNode`. -/
def deviceRoot : Root Block Int where
  pack := .deviceNode
  view
    | .deviceNode d children => some (d, children)
    | _ => none
  view_pack _ _ := rfl

/-- The field `children` of a `SizeNode`. -/
def sizeRoot : Root Block Nat where
  pack := .sizeNode
  view
    | .sizeNode s children => some (s, children)
    | _ => none
  view_pack _ _ := rfl

/-- The field `children` of a `CharNode` of the first level. -/
def firstRoot : Root Block Int where
  pack := .firstNode
  view
    | .firstNode c children => some (c, children)
    | _ => none
  view_pack _ _ := rfl

/-- The field `children` of a `CharNode` of the last level. -/
def lastRoot : Root Block (Int × Option Addr) where
  pack rest children := .lastNode rest.1 rest.2 children
  view
    | .lastNode c fm children => some ((c, fm), children)
    | _ => none
  view_pack _ _ := rfl

/-- `FileEntryHead`. -/
def queueHead : TailQueue.Head Block where
  pack := .queueHead
  view
    | .queueHead first last => some (first, last)
    | _ => none
  view_pack _ _ := rfl

namespace Block

/-- `STAILQ_NEXT`. -/
def entryNext : Block → Option (Option Addr)
  | .entry fe => some fe.entries
  | _ => none

def entryRelink (link : Option Addr) : Block → Option Block
  | .entry fe => some (.entry { fe with entries := link })
  | _ => none

end Block

/-! ### Records -/

/-- `strdup(3)`. -/
def strdup (string : Addr) : Prog Block Addr := do
  malloc (.path (← loadAs Block.path? string))

/-- `metadata_dup` of a record that is not `NULL`. -/
def dup (fm : Record) : Prog Block Addr := do
  let copy ← malloc (.metadata fm)
  let path ← strdup fm.path
  store copy (.metadata { fm with path := path })
  return copy

/-- `*fm`. -/
def deref : MetadataPtr → Prog Block Record
  | .record fm => loadAs Block.metadata? fm
  | .field node => loadAs Block.metadataNode? node

/-- `metadata_dup`. -/
def metadataDup : Option MetadataPtr → Prog Block (Option Addr)
  | none => return none
  | some fm => do
      let fm ← deref fm
      return some (← dup fm)

/-- `free_metadata`. -/
def freeMetadata (fm : Addr) : Prog Block Unit := do
  let record ← loadAs Block.metadata? fm
  free record.path
  free fm

/-- `fopen(3)`: the stream is allocated where the file opens. -/
def fopen (opens : Bool) : Prog Block (Option Addr) := do
  if opens then return some (← malloc .stream) else return none

/-- `fgetc(3)` and `fseek(3)`, which go through the stream and have the result they have. -/
def through {α : Type} (stream : Addr) (result : α) : Prog Block α := do
  let () ← loadAs Block.stream? stream
  return result

/-- `fclose(3)`. -/
def fclose (stream : Addr) : Prog Block Unit :=
  free stream

/-- `metadata_from_entry`: the record is filled on the stack, with the path of the entry, and
copied at the end.  The stream is closed where both reads and the seek succeed, and nowhere else. -/
def metadataFromEntry (env : ScanEnv) (fe : Addr) : Prog Block (Option Addr) := do
  let entry ← loadAs Block.entry? fe
  let path ← loadAs Block.path? entry.path
  match (← fopen (env.fopenOk path)) with
  | none => return none
  | some stream => do
      match (← through stream (env.fgetcFirst path)) with
      | none => return none
      | some first => do
          if (← through stream (env.fseekOk path)) then do
            match (← through stream (env.fgetcLast path)) with
            | none => return none
            | some last => do
                fclose stream
                let fm : Record :=
                  { device := entry.device
                    inode := entry.inode
                    nlink := entry.nlink
                    flags := entry.flags
                    cloneId := env.getCloneId path
                    size := entry.size
                    path := entry.path
                    sha256 := emptySha256
                    first := charOfByte first
                    last := charOfByte last }
                return some (← dup fm)
          else return none

/-- `populate_sha256_if_empty`. -/
def populateSha256IfEmpty (env : ScanEnv) (fm : Addr) : Prog Block Nat := do
  let record ← loadAs Block.metadata? fm
  if !shaIsEmpty record.sha256 then return 0
  else do
    let path ← loadAs Block.path? record.path
    let (result, populated) := Dedup.populateSha256IfEmpty env (record.read path)
    store fm (.metadata { record with sha256 := populated.sha256 })
    return result

/-- The test `populate_sha256_if_empty(fm) || SHA_IS_EMPTY(fm->sha256)`. -/
def couldNotCompute (env : ScanEnv) (fm : Addr) : Prog Block Bool := do
  if (← populateSha256IfEmpty env fm) ≠ 0 then return true
  else do
    let record ← loadAs Block.metadata? fm
    return shaIsEmpty record.sha256

/-- A block that only prints, where it is printed at all. -/
def printing (shown : Bool) (block : Prog Block Unit) : Prog Block Unit :=
  if shown then block else pure ()

/-- What is printed of a record is its path. -/
def printPath (fm : Addr) : Prog Block Unit := do
  let record ← loadAs Block.metadata? fm
  let _ ← loadAs Block.path? record.path
  return ()

/-- What is printed of an entry that could not be read. -/
def printEntry (fe : Addr) : Prog Block Unit := do
  let entry ← loadAs Block.entry? fe
  let _ ← loadAs Block.path? entry.path
  return ()

/-! ### The visited tree -/

/-- `new_visited_tree` and `new_duplicate_tree`. -/
def newTree : Prog Block Addr :=
  malloc (.rbTree [])

/-- `visited_tree_find_or_create_last_node`, with `visited_tree_find_or_create_last_tree`. -/
def visitedTreeFindOrCreateLastNode (tree fm : Addr) : Prog Block Addr := do
  let fm ← loadAs Block.metadata? fm
  let deviceNode ← findOrCreate treeRoot Block.deviceKey tree fm.device (.deviceNode fm.device [])
  let sizeNode ← findOrCreate deviceRoot Block.sizeKey deviceNode fm.size (.sizeNode fm.size [])
  let firstNode ← findOrCreate sizeRoot Block.firstKey sizeNode fm.first (.firstNode fm.first [])
  findOrCreate firstRoot Block.lastKey firstNode fm.last (.lastNode fm.last none [])

/-- `last_node->fm`. -/
def shortcut (lastNode : Addr) : Prog Block (Option Addr) := do
  let ((_, fm), _) ← loadAs lastRoot.view lastNode
  return fm

/-- `last_node->fm = fm`. -/
def setShortcut (lastNode : Addr) (fm : Option Addr) : Prog Block Unit := do
  let ((c, _), children) ← loadAs lastRoot.view lastNode
  store lastNode (.lastNode c fm children)

/-- A `FileMetadataNode` with a copy of `fm`, whose path is a copy as well. -/
def newMetadataNode (fm : Addr) : Prog Block Addr := do
  let record ← loadAs Block.metadata? fm
  let node ← malloc (.metadataNode record)
  let path ← strdup record.path
  store node (.metadataNode { record with path := path })
  return node

/-- The end of `visited_tree_insert` where the shortcut and the new file differ: both move into the
hash subtree, and the node of the shortcut takes over its path. -/
def splitShortcut (lastNode shortcut fm : Addr) : Prog Block Unit := do
  let record ← loadAs Block.metadata? shortcut
  let lastFmNode ← malloc (.metadataNode record)
  insertNode lastRoot Block.metadataKey lastNode lastFmNode
  free shortcut
  setShortcut lastNode none
  let fmNode ← newMetadataNode fm
  insertNode lastRoot Block.metadataKey lastNode fmNode

/-- `visited_tree_insert` at a leaf without children that has a shortcut. -/
def insertAtShortcut (env : ScanEnv) (lastNode shortcut fm : Addr) :
    Prog Block (Option MetadataPtr) := do
  if (← couldNotCompute env shortcut) then do
    printPath shortcut
    -- `free` and not `free_metadata`: the string of the path stays allocated
    free shortcut
    setShortcut lastNode (← metadataDup (some (.record fm)))
    return none
  else if (← couldNotCompute env fm) then do
    printPath fm
    return none
  else do
    let earlier ← loadAs Block.metadata? shortcut
    let later ← loadAs Block.metadata? fm
    if earlier.sha256 = later.sha256 then return some (.record shortcut)
    else do
      splitShortcut lastNode shortcut fm
      return none

/-- `visited_tree_insert` at a leaf with children. -/
def insertAtChildren (env : ScanEnv) (lastNode fm : Addr) : Prog Block (Option MetadataPtr) := do
  if (← couldNotCompute env fm) then do
    printPath fm
    return none
  else do
    let record ← loadAs Block.metadata? fm
    match (← findNode lastRoot Block.metadataKey lastNode record.sha256) with
    | some existing => return some (.field existing)
    | none => do
        let fmNode ← newMetadataNode fm
        insertNode lastRoot Block.metadataKey lastNode fmNode
        return none

/-- `visited_tree_insert` below the leaf it found. -/
def lastNodeInsert (env : ScanEnv) (lastNode fm : Addr) : Prog Block (Option MetadataPtr) := do
  if (← count lastRoot lastNode) = 0 then do
    match (← shortcut lastNode) with
    | none => do
        setShortcut lastNode (← metadataDup (some (.record fm)))
        return none
    | some shortcut => insertAtShortcut env lastNode shortcut fm
  else insertAtChildren env lastNode fm

/-- `visited_tree_insert`. -/
def visitedTreeInsert (env : ScanEnv) (tree fm : Addr) : Prog Block (Option MetadataPtr) := do
  let lastNode ← visitedTreeFindOrCreateLastNode tree fm
  lastNodeInsert env lastNode fm

/-! ### Lists -/

/-- `new_alist_with_capacity`; the list is written once its elements are allocated. -/
def newAlistWithCapacity (initial : Nat) : Prog Block Addr := do
  let elements ← malloc (.elements (Slots.alloc initial))
  malloc (.alist 0 initial elements)

/-- `realloc(3)`, which may always move the block. -/
def reallocElements (elements : Addr) (n : Nat) : Prog Block Addr := do
  let slots ← loadAs Block.elements? elements
  let moved ← malloc (.elements (Slots.resize slots n))
  free elements
  return moved

/-- `alist_ensure`; `fuel` bounds the tests of its loop. -/
def alistEnsure (list : Addr) (required : Nat) : Nat → Prog Block Unit
  | 0 => fail .outOfFuel
  | fuel + 1 => do
      let (size, capacity, elements) ← loadAs Block.alist? list
      if capacity < required then do
        let newCapacity := capacity * 2
        let elements ← reallocElements elements newCapacity
        store list (.alist size newCapacity elements)
        alistEnsure list required fuel
      else return ()

/-- A write into the elements, in bounds. -/
def writeElement (elements : Addr) (index : Nat) (item : Option Addr) : Prog Block Unit := do
  let slots ← loadAs Block.elements? elements
  match Slots.write slots index item with
  | .error _ => fail .outOfBounds
  | .ok slots => store elements (.elements slots)

/-- `alist_size`. -/
def alistSize (list : Addr) : Prog Block Nat := do
  let (size, _, _) ← loadAs Block.alist? list
  return size

/-- `alist_get`: `NULL` out of range. -/
def alistGet (list : Addr) (index : Nat) : Prog Block (Option Addr) := do
  let (size, _, elements) ← loadAs Block.alist? list
  if index ≥ size then return none
  else do
    let slots ← loadAs Block.elements? elements
    match Slots.read slots index with
    | .error _ => fail .outOfBounds
    | .ok item => return item

/-- `alist_add`. -/
def alistAdd (fuel : Nat) (list : Addr) (item : Option Addr) : Prog Block Unit := do
  alistEnsure list ((← alistSize list) + 1) fuel
  let (size, capacity, elements) ← loadAs Block.alist? list
  writeElement elements size item
  store list (.alist (size + 1) capacity elements)

/-- `alist_set`. -/
def alistSet (list : Addr) (index : Nat) (item : Option Addr) : Prog Block Unit := do
  let (size, _, elements) ← loadAs Block.alist? list
  if index ≥ size then return ()
  else writeElement elements index item

/-- A loop over the elements of a list from `i` on, with what it keeps in local variables; its body
says whether it goes on. -/
def forElements {σ : Type} (list : Addr) (body : σ → Addr → Prog Block (ForInStep σ)) (i : Nat)
    (locals : σ) : Nat → Prog Block σ
  | 0 => fail .outOfFuel
  | fuel + 1 => do
      if i < (← alistSize list) then do
        match (← alistGet list i) with
        | none => fail .dangling
        | some fm => do
            match (← body locals fm) with
            | .done locals => return locals
            | .yield locals => forElements list body (i + 1) locals fuel
      else return locals

/-- `free_alist`. -/
def freeAlist (list : Addr) : Prog Block Unit := do
  let (_, _, elements) ← loadAs Block.alist? list
  free elements
  free list

/-! ### The duplicate tree -/

/-- `duplicate_tree_find`. -/
def duplicateTreeFind (tree fm : Addr) : Prog Block Addr := do
  let record ← loadAs Block.metadata? fm
  match (← findNode treeRoot Block.listKey tree record.sha256) with
  | some listNode => do
      let (_, list) ← loadAs Block.listNode? listNode
      return list
  | none => do
      let list ← newAlistWithCapacity 2
      let listNode ← malloc (.listNode record.sha256 list)
      insertNode treeRoot Block.listKey tree listNode
      return list

/-! ### The queue -/

/-- `new_file_entry_queue`. -/
def newFileEntryQueue : Prog Block Addr :=
  malloc (.queueHead none none)

/-- `file_entry_queue_append`; the path that `fts_read` reports is copied. -/
def fileEntryQueueAppend (queue : Addr) (fe : FileEntry) : Prog Block Unit := do
  let path ← malloc (.path fe.path)
  let entry ← malloc (.entry (entryOf fe path none))
  TailQueue.append queueHead Block.entryRelink queue entry

/-- `file_entry_next`. -/
def fileEntryNext (queue : Addr) : Prog Block (Option Addr) := do
  match (← TailQueue.first queueHead queue) with
  | none => return none
  | some entry => do
      TailQueue.removeFirst queueHead Block.entryNext queue entry
      return some entry

/-- `file_entry_free`. -/
def fileEntryFree (fe : Addr) : Prog Block Unit := do
  let entry ← loadAs Block.entry? fe
  free entry.path
  free fe

/-! ### The sections of `visit_entry` -/

/-- Under `visited_mutex`: insert, and copy the match. -/
def insertSection (env : ScanEnv) (tree fm : Addr) : Prog Block (Option Addr) := do
  let old ← visitedTreeInsert env tree fm
  metadataDup old

/-- A copy of the earlier file goes into a list that is empty. -/
def addEarlier (fuel : Nat) (list old : Addr) : Prog Block Unit := do
  if (← alistSize list) = 0 then do
    let copy ← metadataDup (some (.record old))
    alistAdd fuel list copy
  else return ()

/-- What a verbose run prints of a list before a file is added: the path of the file, and those of
the list. -/
def printDuplicates (fuel : Nat) (list fm : Addr) : Prog Block Unit := do
  printPath fm
  forElements list (fun _ item => do
    printPath item
    return .yield ()) 0 () fuel

/-- Under `duplicates_mutex`: the file itself is added last, and the list owns it from here on.
`fuel` bounds the tests of `alist_ensure`, and `rounds` the loop that prints. -/
def recordSection (fuel rounds : Nat) (verbose : Bool) (tree old fm : Addr) : Prog Block Unit := do
  let list ← duplicateTreeFind tree fm
  addEarlier fuel list old
  printing verbose (printDuplicates rounds list fm)
  alistAdd fuel list (some fm)

/-- The test `fm->clone_id != old->clone_id`, after the lists were unlocked. -/
def cloneIdsDiffer (old fm : Addr) : Prog Block Bool := do
  let later ← loadAs Block.metadata? fm
  let earlier ← loadAs Block.metadata? old
  return later.cloneId ≠ earlier.cloneId

/-- What a very verbose run prints of a match. -/
def printMatch (old fm : Addr) : Prog Block Unit := do
  printPath old
  printPath fm

/-! ### Giving everything back -/

/-- `free_metadata_node`. -/
def freeMetadataNode (node : Addr) : Prog Block Unit := do
  let record ← loadAs Block.metadataNode? node
  free record.path
  free node

/-- The shortcut of a leaf is given back first. -/
def freeShortcut (lastNode : Addr) : Prog Block Unit := do
  match (← shortcut lastNode) with
  | none => return ()
  | some fm => do
      freeMetadata fm
      setShortcut lastNode none

/-- `free_last_node`. -/
def freeLastNode (fuel : Nat) (lastNode : Addr) : Prog Block Unit := do
  freeShortcut lastNode
  drain lastRoot Block.metadataKey freeMetadataNode lastNode fuel
  free lastNode

/-- `free_first_node`. -/
def freeFirstNode (fuel : Nat) (firstNode : Addr) : Prog Block Unit := do
  drain firstRoot Block.lastKey (freeLastNode fuel) firstNode fuel
  free firstNode

/-- `free_size_node`. -/
def freeSizeNode (fuel : Nat) (sizeNode : Addr) : Prog Block Unit := do
  drain sizeRoot Block.firstKey (freeFirstNode fuel) sizeNode fuel
  free sizeNode

/-- `free_device_node`. -/
def freeDeviceNode (fuel : Nat) (deviceNode : Addr) : Prog Block Unit := do
  drain deviceRoot Block.sizeKey (freeSizeNode fuel) deviceNode fuel
  free deviceNode

/-- `free_visited_tree`; `fuel` bounds the rounds of each loop. -/
def freeVisitedTree (fuel : Nat) (tree : Addr) : Prog Block Unit := do
  drain treeRoot Block.deviceKey (freeDeviceNode fuel) tree fuel
  free tree

/-- `free_metadata` of an item, which dereferences it. -/
def freeItem : Option Addr → Prog Block Unit
  | none => fail .dangling
  | some fm => freeMetadata fm

/-- The loop of `free_sha256_list_node` from `i` on. -/
def freeItems (list : Addr) (i : Nat) : Nat → Prog Block Unit
  | 0 => fail .outOfFuel
  | fuel + 1 => do
      if i < (← alistSize list) then do
        let fm ← alistGet list i
        freeItem fm
        alistSet list i none
        freeItems list (i + 1) fuel
      else return ()

/-- `free_sha256_list_node`. -/
def freeSha256ListNode (fuel : Nat) (listNode : Addr) : Prog Block Unit := do
  let (_, list) ← loadAs Block.listNode? listNode
  freeItems list 0 fuel
  freeAlist list
  free listNode

/-- `free_duplicate_tree`. -/
def freeDuplicateTree (fuel : Nat) (tree : Addr) : Prog Block Unit := do
  drain treeRoot Block.listKey (freeSha256ListNode fuel) tree fuel
  free tree

/-- `free_file_entry_queue`, which gives back the head alone. -/
def freeFileEntryQueue (queue : Addr) : Prog Block Unit :=
  free queue

end Dedup.ScanMemory
