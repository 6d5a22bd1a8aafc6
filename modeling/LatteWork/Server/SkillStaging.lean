import LatteWork.Server.Skills

/-!
# Stages of skill imports

Any number of processes make a stage in one directory, fill it and drop it, and before that each
removes the stages that nobody uses any more. A process takes one step in the file system after the
other, and may be killed between any two of them. A lock ends with its process.
-/

namespace LatteWork

namespace SkillStaging

open Skills (stageName lease)

inductive Kind where
  | file | link | dir
  deriving DecidableEq, Repr, Inhabited

def Kind.isDir (k : Kind) : Bool := k = .dir

/-- What is at the name of the lease: nothing, a regular file, or what is not taken for a lease. -/
inductive LeaseEntry where
  | none | regular | foreign
  deriving DecidableEq, Repr, Inhabited

abbrev Tree := PathTree String Kind Kind.isDir

/-- A directory: its lease, and what else is below it. -/
structure Dir where
  lease : LeaseEntry
  tree : Tree
  root : tree.isFolder [] = true
  apart : tree.node [Skills.lease] = none

namespace Dir

/-- Nothing is below the directory but the lease. -/
def empty (d : Dir) : Prop := d.tree.names [] = []

instance (d : Dir) : Decidable d.empty := inferInstanceAs (Decidable (_ = _))

/-- A new directory. -/
def new : Dir where
  lease := .none
  tree :=
    { entries := [([], .dir)]
      nodup := List.nodup_singleton _
      closed := fun p n v h => by simp at h }
  root := rfl
  apart := rfl

def mark (d : Dir) (lease : LeaseEntry) : Dir := { d with lease }

/-- Put a node at a path, if its place is free. -/
def insert (d : Dir) (path : List String) (kind : Kind) : Dir :=
  if hlease : path = [Skills.lease] then d
  else
    match h : d.tree.insert path kind with
    | none => d
    | some tree =>
      { d with
        tree
        root := by
          obtain ⟨hne, -, -, -⟩ := PathTree.insert_eq_some h
          rw [PathTree.isFolder, PathTree.node_insert h, if_neg hne.symm]
          exact d.root
        apart := by
          rw [PathTree.node_insert h, if_neg (Ne.symm hlease)]
          exact d.apart }

/-- Take out what is at a path, which is none of the directory itself. -/
def remove (d : Dir) (path : List String) : Dir :=
  if h : path = [] then d
  else
    { d with
      tree := d.tree.remove path
      root := by
        rw [PathTree.isFolder, PathTree.node_remove, if_neg (by rwa [List.prefix_nil])]
        exact d.root
      apart := by
        rw [PathTree.node_remove, d.apart, ite_self] }

end Dir

inductive Entry where
  | dir (d : Dir)
  | other

/-- The file that a lease is, linked in its directory or not, and the process that holds its lock. -/
structure LeaseFile where
  content : List UInt8 := []
  holder : Option ℕ := none
  deriving DecidableEq, Repr, Inhabited

/-- A call of `Staging::new`: the prefix, the entries it may still look at, and `recovered`. -/
structure Call where
  front : String
  left : ℕ := 512
  recovered : ℕ := 0
  deriving DecidableEq, Repr, Inhabited

/-- Where a process is. In a removal `stack` is the directory that is read, and `pending` an entry of
it that has been read, with whether it is a directory. -/
inductive Phase where
  | idle
  | scanning (c : Call)
  | found (c : Call) (name : String)
  | opened (c : Call) (name : String)
  | measured (c : Call) (name : String)
  | locked (c : Call) (name : String)
  | removing (c : Call) (name : String) (stack : List String) (pending : Option (String × Bool))
      (count : ℕ)
  | unmarked (c : Call) (name : String)
  | made (name : String)
  | leased (name : String)
  | held (name : String)
  | live (name : String)
  | dropping (name : String) (locked : Bool)
  | ended
  deriving DecidableEq, Repr, Inhabited

/-- What a recovery removed of a tree. -/
inductive Item where
  | entry (path : List String)
  | lease
  | root
  deriving DecidableEq, Repr, Inhabited

structure Removal where
  process : ℕ
  name : String
  item : Item
  deriving DecidableEq, Repr, Inhabited

/-- The directory that the stages are in. `file` has the lease of each directory by the name of the
directory, and `used` the names that have been used. `strayed` tells that a recovery followed a
symbolic link. -/
structure World where
  parent : String → Option Entry
  file : String → LeaseFile
  used : List String
  phase : ℕ → Phase
  removed : List Removal := []
  strayed : Bool := false

namespace World

def dir (w : World) (name : String) : Option Dir :=
  match w.parent name with
  | some (.dir d) => some d
  | _ => none

def setPhase (w : World) (p : ℕ) (phase : Phase) : World :=
  { w with phase := Function.update w.phase p phase }

def setDir (w : World) (name : String) (d : Dir) : World :=
  { w with parent := Function.update w.parent name (some (.dir d)) }

def removeDir (w : World) (name : String) : World :=
  { w with parent := Function.update w.parent name none }

def setFile (w : World) (name : String) (file : LeaseFile) : World :=
  { w with file := Function.update w.file name file }

/-- The locks of a process end. -/
def unlock (w : World) (p : ℕ) : World :=
  { w with file := fun name =>
      if (w.file name).holder = some p then { w.file name with holder := none } else w.file name }

/-- A process ends, or its call does. -/
def stop (w : World) (p : ℕ) : World := (w.unlock p).setPhase p .ended

def log (w : World) (p : ℕ) (name : String) (item : Item) : World :=
  { w with removed := ⟨p, name, item⟩ :: w.removed }

/-- A path leads through a symbolic link. -/
def throughLink (d : Dir) (path : List String) : Bool :=
  path.inits.any fun p => d.tree.node p = some .link

/-- A step of a recovery. Where it reads a directory, `name` is what the system gives it next. -/
def recover (w : World) (p : ℕ) (name : String) : World :=
  match w.phase p with
  | .scanning c =>
    if c.left = 0 ∨ c.recovered = 8 then w
    else
      let c := { c with left := c.left - 1 }
      if stageName c.front name ∧ (w.dir name).isSome then w.setPhase p (.found c name)
      else w.setPhase p (.scanning c)
  | .found c name =>
    match w.dir name with
    | some d => w.setPhase p (if d.lease = .regular then .opened c name else .scanning c)
    | none => w.setPhase p (.scanning c)
  | .opened c name =>
    w.setPhase p (if (w.file name).content.length = Skills.marker.length then .measured c name else .scanning c)
  | .measured c name =>
    if (w.file name).holder = none then
      (w.setFile name { w.file name with holder := some p }).setPhase p (.locked c name)
    else w.setPhase p (.scanning c)
  | .locked c name =>
    if (w.file name).content ≠ Skills.marker then (w.unlock p).setPhase p (.scanning c)
    else if (w.dir name).isSome then w.setPhase p (.removing c name [] none 0)
    else w.stop p
  | .removing c tree stack none count =>
    match w.dir tree with
    | none => w.stop p
    | some d =>
      if stack = [] ∧ name = lease then w
      else if name ∈ d.tree.names stack then
        if 516 < count + 1 then w.stop p
        else
          let isDir := d.tree.isFolder (stack ++ [name])
          w.setPhase p (.removing c tree stack (some (name, isDir)) (count + 1))
      -- a directory is left when nothing is in it any more, as nobody adds to it
      else if d.tree.names stack ≠ [] then w
      else if stack = [] then
        if d.lease = .none then w.stop p
        else ((w.setDir tree (d.mark .none)).log p tree .lease).setPhase p (.unmarked c tree)
      else if throughLink d stack then { w.stop p with strayed := true }
      else ((w.setDir tree (d.remove stack)).log p tree (.entry stack)).setPhase p
        (.removing c tree stack.dropLast none count)
  | .removing c tree stack (some (child, isDir)) count =>
    match w.dir tree with
    | none => w.stop p
    | some d =>
      let path := stack ++ [child]
      if isDir then
        if 10 < path.length then w.stop p
        else if throughLink d path then { w.stop p with strayed := true }
        else if d.tree.isFolder path then w.setPhase p (.removing c tree path none count)
        else w.stop p
      else if throughLink d stack then { w.stop p with strayed := true }
      else if (d.tree.node path).isNone ∨ d.tree.isFolder path then w.stop p
      else ((w.setDir tree (d.remove path)).log p tree (.entry path)).setPhase p
        (.removing c tree stack none count)
  | .unmarked c tree =>
    match w.dir tree with
    | none => w.stop p
    | some d =>
      if d.lease = .none ∧ d.empty then
        (((w.removeDir tree).log p tree .root).unlock p).setPhase p
          (.scanning { c with recovered := c.recovered + 1 })
      else w.stop p
  | _ => w

/-- `Staging::new` behind the recovery, and what is done with a stage. -/
inductive Use where
  | make (name : String)
  | equip
  | write (bytes : ℕ)
  | fill (path : List String) (kind : Kind)
  | takeOut (path : List String)
  | drop
  | dropEntry (path : List String)
  | dropLease
  | dropRoot
  | release
  deriving DecidableEq, Repr

def use (w : World) (p : ℕ) (u : Use) : World :=
  match u, w.phase p with
  | .make name, .scanning c =>
    if stageName c.front name ∧ name ∉ w.used then
      ({ w.setDir name .new with used := name :: w.used }.setFile name {}).setPhase p (.made name)
    else w
  | .equip, .made name =>
    match w.dir name with
    | some d => (w.setDir name (d.mark .regular)).setPhase p (.leased name)
    | none => w.setPhase p (.dropping name false)
  | .equip, .leased name =>
    if (w.file name).holder = none then
      (w.setFile name { w.file name with holder := some p }).setPhase p (.held name)
    else w.setPhase p (.dropping name false)
  | .write bytes, .held name =>
    let content := Skills.marker.take ((w.file name).content.length + bytes)
    (w.setFile name { w.file name with content }).setPhase p
      (if content = Skills.marker then .live name else .held name)
  | .fill path kind, .live name =>
    match w.dir name with
    | some d => w.setDir name (d.insert path kind)
    | none => w
  | .takeOut path, .live name =>
    match w.dir name with
    | some d => w.setDir name (d.remove path)
    | none => w
  | .drop, .live name => w.setPhase p (.dropping name true)
  | .dropEntry path, .dropping name _ =>
    match w.dir name with
    | some d => if d.tree.names path = [] then w.setDir name (d.remove path) else w
    | none => w
  | .dropLease, .dropping name _ =>
    match w.dir name with
    | some d => w.setDir name (d.mark .none)
    | none => w
  | .dropRoot, .dropping name _ =>
    match w.dir name with
    | some d => if d.lease = .none ∧ d.empty then w.removeDir name else w
    | none => w
  | .release, .dropping name _ => if (w.dir name).isNone then w.stop p else w
  | _, _ => w

/-- A step of a process fails, or its time is over. A stage that is being made is dropped, and what a
drop cannot remove stays. -/
def fail (w : World) (p : ℕ) : World :=
  match w.phase p with
  | .idle | .live _ => w
  | .made name | .leased name | .held name => (w.unlock p).setPhase p (.dropping name false)
  | _ => w.stop p

end World

inductive Act where
  | start (p : ℕ) (front : String)
  | recover (p : ℕ) (name : String)
  | use (p : ℕ) (u : World.Use)
  | fail (p : ℕ)
  | kill (p : ℕ)
  deriving DecidableEq, Repr

def step (w : World) : Act → World
  | .start p front =>
    match w.phase p with
    | .idle => w.setPhase p (.scanning { front })
    | _ => w
  | .recover p name => w.recover p name
  | .use p u => w.use p u
  | .fail p => w.fail p
  | .kill p => w.stop p

end SkillStaging

end LatteWork
