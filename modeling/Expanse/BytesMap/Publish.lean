import Mathlib.Data.List.Basic
import Mathlib.Data.List.InsertIdx
import Mathlib.Data.List.Nodup
import Expanse.Library.Bytes

/-!
# Concurrent writers of one collision bucket

Writers of one hash share the terminal that names its bucket. An overwrite of a key that
is present stores into the published bucket; an insertion or a removal of a key among
others builds a replacement outside the lock, entry by entry, and publishes it. Every
store happens in one step under the terminal's lock, which first compares the published
word with the one the writer has read; a replacement takes the current values over before
it is published. A writer may give up at any time and start again.

A writer is pinned, so the address of a bucket it has read is not used again before it
stops. `log` records the acknowledged calls, the last one first; no step reads it.
-/

namespace Expanse.BytesMap

/-- A bucket: its keys, which are never rewritten, with their value words. -/
abbrev Chain : Type := List (List Byte × ℕ)

/-- `bucket_find`: the length, and the index of the key. -/
def bucketFind (b : Chain) (key : List Byte) : ℕ × Option ℕ :=
  (b.length, b.findIdx? fun e => e.1 = key)

/-- Load one value word. An index outside the bucket is no valid access. -/
def loadValue (b : Chain) (i : ℕ) : Option ℕ := (b[i]?).map Prod.snd

def storeValue (b : Chain) (i val : ℕ) : Option Chain :=
  match b[i]? with
  | some e => some (b.set i (e.1, val))
  | none => none

/-- `publish_entry_value`, without the value it returns. -/
def publishEntryValue (b : Chain) (i val : ℕ) : Option Chain := storeValue b i val

/-- `refresh_replacement_values`. -/
def refreshReplacementValues (old repl : Chain) (n : ℕ) : Option Chain :=
  (List.range n).foldlM (fun repl i => do
    let v ← loadValue old i
    storeValue repl i v) repl

/-- `refresh_replacement_values_removing`. -/
def refreshReplacementValuesRemoving (old repl : Chain) (len index : ℕ) : Option Chain :=
  (List.range len).foldlM (fun repl i =>
    if i = index then some repl
    else do
      let v ← loadValue old i
      storeValue repl (if i < index then i else i - 1) v) repl

/-- How a replacement differs from the bucket it replaces. -/
inductive Edit where
  | append (key : List Byte) (val : ℕ)
  | without (index : ℕ) (key : List Byte)
deriving DecidableEq

def Edit.apply : Edit → Chain → Chain
  | append key val, b => b ++ [(key, val)]
  | without index _, b => b.eraseIdx index

def Edit.close : Edit → Chain → Chain
  | append key val, fresh => fresh ++ [(key, val)]
  | without _ _, fresh => fresh

/-- The refresh of a replacement of the published bucket `old`. -/
def Edit.refresh (edit : Edit) (old repl : Chain) (len : ℕ) : Option Chain :=
  match edit with
  | append _ _ => refreshReplacementValues old repl len
  | without index _ => refreshReplacementValuesRemoving old repl len index

/-- What the call acknowledges: the value that the key has now. -/
def Edit.ack : Edit → List Byte × Option ℕ
  | append key val => (key, some val)
  | without _ key => (key, none)

/-- Where a writer stands: an overwrite has found its entry in bucket `word`; a copy of `word` has
taken the entries below `next`; the replacement is complete at address `raw`. -/
inductive Writer where
  | idle
  | located (word index : ℕ) (key : List Byte) (val : ℕ)
  | copying (word len : ℕ) (edit : Edit) (next : ℕ) (fresh : Chain)
  | built (word len : ℕ) (edit : Edit) (raw : ℕ)
deriving DecidableEq

/-- The addresses that a writer's pin protects. -/
def Writer.names : Writer → List ℕ
  | idle => []
  | located word _ _ _ => [word]
  | copying word _ _ _ _ => [word]
  | built word _ _ raw => [word, raw]

structure Terminal where
  /-- The word that names the published bucket. -/
  word : ℕ
  heap : ℕ → Chain
  writers : List Writer
  log : List (List Byte × Option ℕ)
  /-- An access outside a bucket has happened. -/
  broken : Bool

namespace Terminal

/-- A published bucket and `n` writers. -/
def start (word n : ℕ) (b : Chain) : Terminal :=
  ⟨word, Function.update (fun _ => []) word b, List.replicate n .idle, [], false⟩

def setWriter (s : Terminal) (i : ℕ) (w : Writer) : Terminal := { s with writers := s.writers.set i w }

def setBucket (s : Terminal) (p : ℕ) (b : Chain) : Terminal := { s with heap := Function.update s.heap p b }

/-- A call reads the published word and searches its bucket. Only the calls that change a bucket of
several keys, or one value, go on. -/
def beginInsert (s : Terminal) (i : ℕ) (key : List Byte) (val : ℕ) : Terminal :=
  match bucketFind (s.heap s.word) key with
  | (_, some index) => s.setWriter i (.located s.word index key val)
  | (len, none) => s.setWriter i (.copying s.word len (.append key val) 0 [])

def beginRemove (s : Terminal) (i : ℕ) (key : List Byte) : Terminal :=
  match bucketFind (s.heap s.word) key with
  | (len, some index) =>
    if len = 1 then s else s.setWriter i (.copying s.word len (.without index key) 0 [])
  | (_, none) => s

/-- One turn of the loop of `clone_bucket_with` or `clone_bucket_without`. -/
def copyEntry (s : Terminal) (i word len : ℕ) (edit : Edit) (next : ℕ) (fresh : Chain) : Terminal :=
  match (s.heap word)[next]? with
  | none => { s with broken := true }
  | some e =>
    match edit with
    | .append _ _ => s.setWriter i (.copying word len edit (next + 1) (fresh ++ [e]))
    | .without index _ =>
      s.setWriter i (.copying word len edit (next + 1) (if next = index then fresh else fresh ++ [e]))

/-- The end of the clone: the replacement gets an address. -/
def box (s : Terminal) (i word len : ℕ) (edit : Edit) (fresh : Chain) (raw : ℕ) : Terminal :=
  (s.setBucket raw (edit.close fresh)).setWriter i (.built word len edit raw)

/-- `olc_bucket_value_inplace_map`: store only while the bucket is still published. -/
def publishValue (s : Terminal) (i word index : ℕ) (key : List Byte) (val : ℕ) : Terminal :=
  if s.word = word then
    match publishEntryValue (s.heap word) index val with
    | some b => { (s.setBucket word b).setWriter i .idle with log := (key, some val) :: s.log }
    | none => { s with broken := true }
  else s.setWriter i .idle

/-- `olc_cas_publish_bucket_map` and `olc_cas_publish_shorter_bucket_map`: refresh and publish the
replacement only while the bucket it replaces is still published. -/
def publishBucket (s : Terminal) (i word len : ℕ) (edit : Edit) (raw : ℕ) : Terminal :=
  if s.word = word then
    match edit.refresh (s.heap word) (s.heap raw) len with
    | some b => { (s.setBucket raw b).setWriter i .idle with word := raw, log := edit.ack :: s.log }
    | none => { s with broken := true }
  else s.setWriter i .idle

end Terminal

/-- The steps of the writers. -/
inductive Action where
  | insert (i : ℕ) (key : List Byte) (val : ℕ)
  | remove (i : ℕ) (key : List Byte)
  | copy (i : ℕ)
  | box (i raw : ℕ)
  | publish (i : ℕ)
  | abandon (i : ℕ)

/-- One step, where it is enabled. -/
def Terminal.step (s : Terminal) : Action → Option Terminal
  | .insert i key val => if s.writers[i]? = some .idle then some (s.beginInsert i key val) else none
  | .remove i key => if s.writers[i]? = some .idle then some (s.beginRemove i key) else none
  | .copy i =>
    match s.writers[i]? with
    | some (.copying word len edit next fresh) =>
      if next < len then some (s.copyEntry i word len edit next fresh) else none
    | _ => none
  | .box i raw =>
    match s.writers[i]? with
    | some (.copying word len edit next fresh) =>
      if next = len ∧ raw ≠ s.word ∧ ∀ w ∈ s.writers, raw ∉ w.names then
        some (s.box i word len edit fresh raw)
      else none
    | _ => none
  | .publish i =>
    match s.writers[i]? with
    | some (.located word index key val) => some (s.publishValue i word index key val)
    | some (.built word len edit raw) => some (s.publishBucket i word len edit raw)
    | _ => none
  | .abandon i => if i < s.writers.length then some (s.setWriter i .idle) else none

def Terminal.steps : Terminal → List Action → Option Terminal
  | s, [] => some s
  | s, a :: as => (s.step a).bind fun s => s.steps as

/-- The states that any interleaving of `n` writers reaches from a published bucket. -/
inductive Terminal.Reachable (word n : ℕ) (b : Chain) : Terminal → Prop where
  | start : Reachable word n b (.start word n b)
  | step {s s' : Terminal} (a : Action) : Reachable word n b s → s.step a = some s' → Reachable word n b s'

/-- The value that the acknowledged calls leave under a key. -/
def lastAcknowledged (b : Chain) (log : List (List Byte × Option ℕ)) (key : List Byte) : Option ℕ :=
  (log.lookup key).getD (b.lookup key)

end Expanse.BytesMap
