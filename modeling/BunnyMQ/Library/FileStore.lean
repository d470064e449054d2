import BunnyMQ.Library.ByteOrder
import Mathlib.Data.List.AList

namespace Foundation.FileStore
open List Option

/-- A file holds its bytes and the length that a completed sync covers. A shared mapping may
write any unsynced byte. -/
structure File where
  data : Bytes
  synced : Nat
  mapped : Bool
  deriving DecidableEq, Repr

def File.empty : File := ⟨[], 0, false⟩

abbrev Disk (Name : Type) := AList fun _ : Name => File

/-- These are the system calls that change a directory or a file in it. -/
inductive FileOp (Name : Type) where
  | create (file : Name)
  | append (file : Name) (data : Bytes)
  | truncate (file : Name) (size : Nat)
  | write (file : Name) (data : Bytes)
  | mmap (file : Name)
  | msync (file : Name) (data : Bytes)
  | sync (file : Name)
  | rename (source target : Name)
  | remove (file : Name)
  deriving DecidableEq, Repr

section
variable {Name : Type} [DecidableEq Name]
variable {disk : Disk Name} {file : Name} {holds : Disk Name → Prop} {ops : List (FileOp Name)}

/-- A call on an open file leaves every other file alone. -/
def Disk.modify (disk : Disk Name) (file : Name) (change : File → File) : Disk Name :=
  match disk.lookup file with
  | some content => disk.insert file (change content)
  | none => disk

/-- A truncation pads a longer size with zero bytes. -/
def File.truncate (file : File) (size : Nat) : File :=
  { file with
    data := file.data.take size ++ replicate (size - file.data.length) 0
    synced := min file.synced size }

def Disk.apply (disk : Disk Name) : FileOp Name → Disk Name
  | .create file => if file ∈ disk then disk else disk.insert file File.empty
  | .append file data => disk.modify file fun content => { content with data := content.data ++ data }
  | .truncate file size => disk.modify file fun content => content.truncate size
  | .write file data => disk.insert file { File.empty with data := data }
  | .mmap file => disk.modify file fun content => { content with mapped := true }
  | .msync file data => disk.modify file fun content =>
    { content with data := data, synced := data.length }
  | .sync file => disk.modify file fun content => { content with synced := content.data.length }
  | .rename source target =>
    match disk.lookup source with
    | some content => (disk.erase source).insert target content
    | none => disk
  | .remove file => disk.erase file

def Disk.applyAll (disk : Disk Name) (ops : List (FileOp Name)) : Disk Name :=
  ops.foldl Disk.apply disk

def Disk.read (disk : Disk Name) (file : Name) : Option Bytes :=
  (disk.lookup file).map File.data

/-- The operation can change only these files. -/
def FileOp.touches : FileOp Name → List Name
  | .create file | .append file _ | .truncate file _ | .write file _ | .mmap file
  | .msync file _ | .sync file | .remove file => [file]
  | .rename source target => [source, target]

@[simp] theorem applyAll_nil (disk : Disk Name) : disk.applyAll [] = disk := rfl

@[simp] theorem applyAll_cons (disk : Disk Name) (op : FileOp Name) (ops : List (FileOp Name)) :
    disk.applyAll (op :: ops) = (disk.apply op).applyAll ops := rfl

@[simp] theorem applyAll_append (disk : Disk Name) (first second : List (FileOp Name)) :
    disk.applyAll (first ++ second) = (disk.applyAll first).applyAll second := by
  simp [Disk.applyAll]

theorem lookup_modify (disk : Disk Name) (file name : Name) (change : File → File) :
    (disk.modify file change).lookup name =
      if name = file then (disk.lookup file).map change else disk.lookup name := by
  unfold Disk.modify
  split
  · next content found =>
    split
    · next same => rw [same, AList.lookup_insert, found, map_some]
    · next other => exact AList.lookup_insert_ne other
  · next missing =>
    split
    · next same => rw [same, missing, map_none]
    · rfl

@[simp] theorem lookup_append (disk : Disk Name) (file name : Name) (data : Bytes) :
    (disk.apply (.append file data)).lookup name =
      if name = file then (disk.lookup file).map fun content => { content with data := content.data ++ data }
      else disk.lookup name :=
  lookup_modify disk file name _

@[simp] theorem lookup_truncate (disk : Disk Name) (file name : Name) (size : Nat) :
    (disk.apply (.truncate file size)).lookup name =
      if name = file then (disk.lookup file).map fun content => content.truncate size else disk.lookup name :=
  lookup_modify disk file name _

@[simp] theorem lookup_mmap (disk : Disk Name) (file name : Name) :
    (disk.apply (.mmap file)).lookup name =
      if name = file then (disk.lookup file).map fun content => { content with mapped := true }
      else disk.lookup name :=
  lookup_modify disk file name _

@[simp] theorem lookup_msync (disk : Disk Name) (file name : Name) (data : Bytes) :
    (disk.apply (.msync file data)).lookup name =
      if name = file then (disk.lookup file).map fun content =>
        { content with data := data, synced := data.length }
      else disk.lookup name :=
  lookup_modify disk file name _

@[simp] theorem lookup_sync (disk : Disk Name) (file name : Name) :
    (disk.apply (.sync file)).lookup name =
      if name = file then (disk.lookup file).map fun content => { content with synced := content.data.length }
      else disk.lookup name :=
  lookup_modify disk file name _

@[simp] theorem lookup_create (disk : Disk Name) (file name : Name) :
    (disk.apply (.create file)).lookup name =
      if name = file then some ((disk.lookup file).getD File.empty) else disk.lookup name := by
  simp only [Disk.apply]
  split
  · next present =>
    obtain ⟨content, found⟩ := isSome_iff_exists.mp (AList.lookup_isSome.mpr present)
    split
    · next same => rw [same, found, getD_some]
    · rfl
  · next absent =>
    have missing := AList.lookup_eq_none.mpr absent
    split
    · next same => rw [same, AList.lookup_insert, missing, getD_none]
    · next other => exact AList.lookup_insert_ne other

@[simp] theorem lookup_write (disk : Disk Name) (file name : Name) (data : Bytes) :
    (disk.apply (.write file data)).lookup name =
      if name = file then some { File.empty with data := data } else disk.lookup name := by
  simp only [Disk.apply]
  split
  · next same => rw [same, AList.lookup_insert]
  · next other => exact AList.lookup_insert_ne other

/-- A create leaves an existing file alone. -/
theorem create_of_isSome (present : (disk.lookup file).isSome) : disk.apply (.create file) = disk :=
  if_pos (AList.lookup_isSome.mp present)

/-- A truncation to the length of a prefix leaves the prefix. -/
theorem read_truncate {data rest : Bytes} (found : disk.read file = some (data ++ rest)) :
    (disk.apply (.truncate file data.length)).read file = some data := by
  obtain ⟨content, lookup, same⟩ := map_eq_some_iff.mp found
  rw [Disk.read, lookup_truncate, if_pos rfl, lookup, map_some, map_some, File.truncate, same,
    take_left, length_append, Nat.sub_eq_zero_of_le (by omega), replicate_zero, append_nil]

theorem read_append {data : Bytes} (found : disk.read file = some data) (more : Bytes) :
    (disk.apply (.append file more)).read file = some (data ++ more) := by
  obtain ⟨content, lookup, same⟩ := map_eq_some_iff.mp found
  rw [Disk.read, lookup_append, if_pos rfl, lookup, map_some, map_some, same]

@[simp] theorem lookup_remove (disk : Disk Name) (file name : Name) :
    (disk.apply (.remove file)).lookup name = if name = file then none else disk.lookup name := by
  simp only [Disk.apply]
  split
  · next same => rw [same, AList.lookup_erase]
  · next other => exact AList.lookup_erase_ne other

theorem lookup_rename {source target : Name} {content : File} (found : disk.lookup source = some content)
    (name : Name) :
    (disk.apply (.rename source target)).lookup name =
      if name = target then some content else if name = source then none else disk.lookup name := by
  simp only [Disk.apply, found]
  split
  · next same => rw [same, AList.lookup_insert]
  · next other =>
    rw [AList.lookup_insert_ne other]
    split
    · next same => rw [same, AList.lookup_erase]
    · next different => exact AList.lookup_erase_ne different

/-- An operation keeps every file that it does not name. -/
theorem lookup_apply_of_not_touched (disk : Disk Name) (op : FileOp Name) (name : Name)
    (untouched : name ∉ op.touches) : (disk.apply op).lookup name = disk.lookup name := by
  cases op with
  | create file => rw [lookup_create, if_neg (by simpa [FileOp.touches] using untouched)]
  | write file data => rw [lookup_write, if_neg (by simpa [FileOp.touches] using untouched)]
  | remove file => rw [lookup_remove, if_neg (by simpa [FileOp.touches] using untouched)]
  | rename source target =>
    simp only [FileOp.touches, mem_cons, not_mem_nil, or_false, not_or] at untouched
    cases found : disk.lookup source with
    | none => simp [Disk.apply, found]
    | some content => rw [lookup_rename found, if_neg untouched.2, if_neg untouched.1]
  | append file data | truncate file size | mmap file | msync file data | sync file =>
    exact (lookup_modify disk file name _).trans (if_neg (by simpa [FileOp.touches] using untouched))

/-- A list of operations keeps every file that none of them names. -/
theorem lookup_applyAll_of_not_touched (disk : Disk Name) (ops : List (FileOp Name)) (name : Name)
    (untouched : ∀ op ∈ ops, name ∉ op.touches) :
    (disk.applyAll ops).lookup name = disk.lookup name := by
  induction ops generalizing disk with
  | nil => rfl
  | cons op ops ih =>
    rw [applyAll_cons, ih _ fun later member => untouched later (mem_cons_of_mem _ member)]
    exact lookup_apply_of_not_touched disk op name (untouched op mem_cons_self)

/-- The predicate holds of the disk after every prefix of the operations. -/
def Along (holds : Disk Name → Prop) (disk : Disk Name) (ops : List (FileOp Name)) : Prop :=
  ∀ count, holds (disk.applyAll (ops.take count))

theorem along_nil : Along holds disk [] ↔ holds disk := by
  simp [Along]

theorem along_cons {op : FileOp Name} :
    Along holds disk (op :: ops) ↔ holds disk ∧ Along holds (disk.apply op) ops := by
  constructor
  · intro along
    exact ⟨along 0, fun count => along (count + 1)⟩
  · rintro ⟨initial, along⟩ count
    cases count with
    | zero => exact initial
    | succ count => exact along count

theorem along_append {first second : List (FileOp Name)} :
    Along holds disk (first ++ second) ↔
      Along holds disk first ∧ Along holds (disk.applyAll first) second := by
  induction first generalizing disk with
  | nil =>
    rw [nil_append, applyAll_nil, along_nil]
    exact ⟨fun along => ⟨by simpa using along 0, along⟩, fun both => both.2⟩
  | cons op first ih => rw [cons_append, along_cons, along_cons, ih, applyAll_cons, and_assoc]

theorem Along.final (along : Along holds disk ops) : holds (disk.applyAll ops) := by
  simpa using along ops.length

theorem Along.mono {first second : Disk Name → Prop} (along : Along first disk ops)
    (weaker : ∀ image, first image → second image) : Along second disk ops :=
  fun count => weaker _ (along count)

/-- A predicate that every listed operation keeps holds after every prefix. -/
theorem along_of_step (initial : holds disk) (step : ∀ op ∈ ops, ∀ image, holds image → holds (image.apply op)) :
    Along holds disk ops := by
  induction ops generalizing disk with
  | nil => exact along_nil.mpr initial
  | cons op ops ih =>
    exact along_cons.mpr ⟨initial, ih (step op mem_cons_self disk initial)
      fun later member => step later (mem_cons_of_mem _ member)⟩

/-- Operations on some files leave every other file alone. -/
theorem along_untouched {touched : Name → Prop} (only : ∀ op ∈ ops, ∀ name ∈ op.touches, touched name)
    (disk : Disk Name) :
    Along (fun image => ∀ name, ¬ touched name → image.lookup name = disk.lookup name) disk ops := by
  refine along_of_step (fun _ _ => rfl) fun op member image same name other => ?_
  rw [← same name other]
  exact lookup_apply_of_not_touched image op name fun found => other (only op member name found)

/-- After a crash a file keeps its synced bytes. An appended file loses a suffix, and a mapped
file may hold anything behind its synced bytes. -/
structure File.Survives (before after : File) : Prop where
  durable : after.data.take before.synced = before.data.take before.synced
  covered : before.synced ≤ before.data.length → before.synced ≤ after.data.length
  shorter : before.mapped = false → after.data <+: before.data

/-- A crash keeps the directory and lets each file survive on its own. -/
def Survives (before after : Disk Name) : Prop :=
  ∀ name, Option.Rel File.Survives (before.lookup name) (after.lookup name)

theorem Survives.lookup_none {before after : Disk Name} (survives : Survives before after)
    {name : Name} (missing : before.lookup name = none) : after.lookup name = none := by
  have related := survives name
  rw [missing] at related
  cases found : after.lookup name with
  | none => rfl
  | some content => rw [found] at related; cases related

theorem Survives.lookup_some {before after : Disk Name} (survives : Survives before after)
    {name : Name} {content : File} (found : before.lookup name = some content) :
    ∃ left, after.lookup name = some left ∧ content.Survives left := by
  have related := survives name
  rw [found] at related
  cases left : after.lookup name with
  | none => rw [left] at related; cases related
  | some survivor => rw [left] at related; cases related with | some same => exact ⟨survivor, rfl, same⟩

/-- A stop without any loss is a crash too. -/
theorem Survives.refl (disk : Disk Name) : Survives disk disk := by
  intro name
  cases disk.lookup name with
  | none => exact Option.Rel.none
  | some content => exact Option.Rel.some ⟨rfl, id, fun _ => prefix_refl _⟩

/-- A completely synced appended file survives unchanged. -/
theorem File.Survives.data_eq {before after : File} (survives : before.Survives after)
    (synced : before.synced = before.data.length) (appended : before.mapped = false) :
    after.data = before.data := by
  have long := survives.covered synced.le
  rw [synced] at long
  exact (survives.shorter appended).eq_of_length_le long

end

/-- A program reads the disk and returns its result with the operations that it performs. A failed
program has performed the operations before its failure. -/
structure Program (Name ε α : Type) where
  run : Disk Name → Except ε α × List (FileOp Name)

namespace Program
variable {Name ε α β : Type}

protected def pure (value : α) : Program Name ε α := ⟨fun _ => (.ok value, [])⟩

def fail (failure : ε) : Program Name ε α := ⟨fun _ => (.error failure, [])⟩

def perform (op : FileOp Name) : Program Name ε Unit := ⟨fun _ => (.ok (), [op])⟩

/-- The program inspects the disk and changes nothing. -/
def observe (query : Disk Name → Except ε α) : Program Name ε α := ⟨fun disk => (query disk, [])⟩

def ofExcept (result : Except ε α) : Program Name ε α := ⟨fun _ => (result, [])⟩

/-- The program reports its failure in another form. -/
def mapError {δ : Type} (describe : ε → δ) (program : Program Name ε α) : Program Name δ α :=
  ⟨fun disk => ((program.run disk).1.mapError describe, (program.run disk).2)⟩

@[simp] theorem fail_run (failure : ε) (disk : Disk Name) :
    (fail failure : Program Name ε α).run disk = (.error failure, []) := rfl

@[simp] theorem perform_run (op : FileOp Name) (disk : Disk Name) :
    (perform op : Program Name ε Unit).run disk = (.ok (), [op]) := rfl

@[simp] theorem observe_run (query : Disk Name → Except ε α) (disk : Disk Name) :
    (observe query : Program Name ε α).run disk = (query disk, []) := rfl

theorem mapError_ok {δ : Type} {describe : ε → δ} {program : Program Name ε α} {disk : Disk Name}
    {value : α} {ops : List (FileOp Name)} (ran : program.run disk = (.ok value, ops)) :
    (mapError describe program).run disk = (.ok value, ops) := by
  simp only [mapError, ran]
  rfl

/-- A new description of the errors changes no success. -/
theorem mapError_run_ok {δ : Type} {describe : ε → δ} {program : Program Name ε α} {disk : Disk Name} {value : α}
    {ops : List (FileOp Name)} (ran : (mapError describe program).run disk = (.ok value, ops)) :
    program.run disk = (.ok value, ops) := by
  cases outcome : program.run disk with
  | mk answer written =>
    simp only [mapError, outcome] at ran
    cases answer with
    | error failure => cases ran
    | ok other =>
      cases ran
      rfl

variable [DecidableEq Name]
variable {first : Program Name ε α} {disk : Disk Name} {value : α} {ops : List (FileOp Name)}
  {next : α → Program Name ε β} {result : Except ε α}

protected def bind (first : Program Name ε α) (next : α → Program Name ε β) : Program Name ε β :=
  ⟨fun disk => match first.run disk with
    | (.ok value, ops) =>
      let rest := (next value).run (disk.applyAll ops)
      (rest.1, ops ++ rest.2)
    | (.error failure, ops) => (.error failure, ops)⟩

instance : Monad (Program Name ε) where
  pure := Program.pure
  bind := Program.bind

@[simp] theorem pure_run (value : α) (disk : Disk Name) :
    (pure value : Program Name ε α).run disk = (.ok value, []) := rfl

/-- A finished sequence runs its second part on the disk that the first part leaves. -/
theorem bind_ok (ran : first.run disk = (.ok value, ops)) (next : α → Program Name ε β) :
    (first >>= next).run disk =
      (((next value).run (disk.applyAll ops)).1, ops ++ ((next value).run (disk.applyAll ops)).2) := by
  change (Program.bind first next).run disk = _
  simp only [Program.bind, ran]

theorem bind_eq {result : Except ε β} {more : List (FileOp Name)} (ran : first.run disk = (.ok value, ops))
    (rest : (next value).run (disk.applyAll ops) = (result, more)) :
    (first >>= next).run disk = (result, ops ++ more) := by
  rw [bind_ok ran, rest]

/-- A failure stops the sequence. -/
theorem bind_error {failure : ε} (ran : first.run disk = (.error failure, ops)) (next : α → Program Name ε β) :
    (first >>= next).run disk = (.error failure, ops) := by
  change (Program.bind first next).run disk = _
  simp only [Program.bind, ran]

/-- A last step that only shapes the value passes every failure on. -/
theorem bind_pure_run (ran : first.run disk = (result, ops)) (f : α → β) :
    (first >>= fun value => pure (f value)).run disk = (result.map f, ops) := by
  cases result with
  | ok value => rw [bind_ok ran, pure_run, append_nil]; rfl
  | error failure => rw [bind_error ran]; rfl

/-- A sequence that finishes consists of two parts that finish. -/
theorem bind_run_ok {result : β} (ran : (first >>= next).run disk = (.ok result, ops)) :
    ∃ value before behind, first.run disk = (.ok value, before) ∧
      (next value).run (disk.applyAll before) = (.ok result, behind) ∧ ops = before ++ behind := by
  cases outcome : first.run disk with
  | mk answer before =>
    cases answer with
    | error failure =>
      rw [bind_error outcome] at ran
      cases ran
    | ok value =>
      rw [bind_ok outcome] at ran
      obtain ⟨finished, written⟩ := Prod.mk.inj ran
      exact ⟨value, before, _, rfl, Prod.ext finished rfl, written.symm⟩

/-- An operation runs before the rest of the sequence. -/
@[simp] theorem perform_bind (op : FileOp Name) (next : Unit → Program Name ε β) (disk : Disk Name) :
    (perform op >>= next).run disk =
      (((next ()).run (disk.apply op)).1, op :: ((next ()).run (disk.apply op)).2) := rfl

theorem observe_bind {query : Disk Name → Except ε α} (found : query disk = .ok value) (next : α → Program Name ε β) :
    (observe query >>= next).run disk = (next value).run disk := by
  rw [bind_ok (by rw [observe_run, found])]
  rfl

theorem ofExcept_bind (found : result = .ok value) (next : α → Program Name ε β) (disk : Disk Name) :
    (ofExcept result >>= next).run disk = (next value).run disk := by
  rw [found]
  rfl

omit [DecidableEq Name] in
theorem ofExcept_run_ok (ran : (ofExcept result).run disk = (.ok value, ops)) : result = .ok value ∧ ops = [] := by
  cases result with
  | error failure => cases ran
  | ok found =>
    cases ran
    exact ⟨rfl, rfl⟩

/-- The program looks at nothing on the disk. -/
def Blind (program : Program Name ε α) : Prop := ∀ disk other, program.run disk = program.run other

theorem Blind.bind (blind : first.Blind) (rest : ∀ value, (next value).Blind) : (first >>= next).Blind := by
  intro disk other
  have same := blind other disk
  cases outcome : first.run disk with
  | mk answer ops =>
    rw [outcome] at same
    cases answer with
    | error failure => rw [bind_error outcome, bind_error same]
    | ok value => rw [bind_ok outcome, bind_ok same, rest value _ (other.applyAll ops)]

end Program

end Foundation.FileStore
