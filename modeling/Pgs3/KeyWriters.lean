import Pgs3.Latest

/-!
# Concurrent writers of one key

Any number of write transactions on one key, interleaved at the granularity of their
statements under READ COMMITTED: each statement sees what is committed when it starts,
with the transaction's own writes on top.  A transaction takes the shared lifecycle lock
of the bucket, then the exclusive advisory lock of the key (`_lock_key`), and keeps both to
its end; it may roll back at any point.  Version ids come from a sequence that is not
rolled back and that writers of other keys draw from too.

The statements are those of `_commit_body_locked`, `_commit_canonical_locked`,
`_commit_reference_locked`, `copy`, `restore` and `delete`, on the rows of the one key.
The functions they apply to those rows (`isLatestOf`, `checkWritePreconditions`,
`greatestVersion`) are the ones of the sequential model.
-/

namespace Pgs3

abbrev Tid := Nat

/-- What a transaction does to the key.  `publish` is `put`, a staged or multipart
    completion, and a copy from another key; `copySelf` is a copy of the key onto itself,
    where version `none` is the latest one. -/
inductive WriteAction where
  | publish (payload : Payload) (contentType : Option Text) (metadata : Jsonb)
      (ifNoneMatch ifMatch : Option Text)
  | copySelf (version : Option Int) (sourceIfMatch contentType : Option Text)
      (metadata : Option Jsonb) (ifNoneMatch ifMatch : Option Text)
  | restore (version : Int) (ifMatch : Option Text)
  | deleteMarker
  | deleteVersion (version : Int)

namespace WriteAction

def ifNoneMatch : WriteAction → Option Text
  | publish _ _ _ n _ | copySelf _ _ _ _ n _ => n
  | _ => none

def ifMatch : WriteAction → Option Text
  | publish _ _ _ _ m | copySelf _ _ _ _ _ m | restore _ m => m
  | _ => none

def isDeletion : WriteAction → Bool
  | deleteMarker | deleteVersion _ => true
  | _ => false

/-- Everything but the deletion of a version inserts a row. -/
def inserts : WriteAction → Bool
  | deleteVersion _ => false
  | _ => true

end WriteAction

/-! ## 1. Statements -/

inductive Statement where
  | lockLifecycle
  | lockKey
  | readSource
  | readLatest
  | checkConditions
  | storeBlob
  | demote
  | insertRow
  | deleteRow
  | promote
deriving DecidableEq, Repr

/-- The statements of an action, in order.  `restore` and `copy` lock before they read their
    source, and `_commit_reference_locked` asks for both locks again. -/
def WriteAction.program : WriteAction → List Statement
  | publish _ _ _ _ _ => [.lockLifecycle, .lockKey, .readLatest, .checkConditions, .storeBlob,
      .demote, .insertRow]
  | copySelf _ _ _ _ _ _ | restore _ _ => [.lockLifecycle, .lockKey, .readSource, .lockLifecycle,
      .lockKey, .readLatest, .checkConditions, .storeBlob, .demote, .insertRow]
  | deleteMarker => [.lockLifecycle, .lockKey, .demote, .insertRow]
  | deleteVersion _ => [.lockLifecycle, .lockKey, .deleteRow, .promote]

/-- What a statement has written: a mark on the row versions it selected, a new row, or a
    deleted one. -/
inductive RowWrite where
  | mark (versions : List Nat) (value : Bool)
  | insert (row : ObjectRow)
  | remove (version : Nat)

def RowWrite.apply (rows : List ObjectRow) : RowWrite → List ObjectRow
  | mark versions value =>
      rows.map fun o => if o.versionId ∈ versions then { o with isLatest := value } else o
  | insert row => rows ++ [row]
  | remove version => rows.filter fun o => decide (o.versionId ≠ version)

/-- Committed rows with a transaction's own writes on top. -/
def overlay (rows : List ObjectRow) (writes : List RowWrite) : List ObjectRow :=
  writes.foldl RowWrite.apply rows

/-- The PL/pgSQL variables `v_current`, `v_source`, `v_deleted` and the version id that
    `RETURNING` gave. -/
structure Locals where
  current : Option ObjectRow := none
  source : Option ObjectRow := none
  deleted : Option ObjectRow := none
  version : Nat := 0

section Key

variable (b : Nat) (k : Text)

/-- The row that a self-copy or a restore reads: a given live version, or the live latest
    one. -/
def WriteAction.sourceRow (rows : List ObjectRow) : WriteAction → Option ObjectRow
  | copySelf none _ _ _ _ _ => rows.find? fun o => isLatestOf b k o && !o.deleteMarker
  | copySelf (some v) _ _ _ _ _ | restore v _ =>
      rows.find? fun o => isVersionOf b k v o && !o.deleteMarker
  | _ => none

def WriteAction.sourceMissing : WriteAction → PgError
  | copySelf version _ _ _ _ _ => ⟨.P3K01, "NoSuchKey: " ++ String.ofList k,
      some (if version.isNone then .NoSuchKey else .NoSuchVersion)⟩
  | _ => ⟨.P3K01, "NoSuchVersion", some .NoSuchVersion⟩

def WriteAction.sourceIfMatch : WriteAction → Option Text
  | copySelf _ m _ _ _ _ => m
  | _ => none

/-- The source of a self-copy or restore, which must exist and meet its own condition. -/
def WriteAction.checkedSource (rows : List ObjectRow) (a : WriteAction) :
    Except PgError ObjectRow :=
  match a.sourceRow b k rows with
  | none => .error (a.sourceMissing k)
  | some o =>
      if ∃ m ∈ a.sourceIfMatch, some (normalizeEtag m) ≠ o.etag then
        .error (preconditionFailed "copy source If-Match")
      else .ok o

/-- The row that an action inserts; `source` is the row that a self-copy or a restore has
    read. -/
def WriteAction.row (c : Context) (v : Nat) (source : Option ObjectRow) : WriteAction → ObjectRow
  | publish payload contentType metadata _ _ =>
      ⟨b, k, v, true, some payload, contentType, metadata, c.now, c.actor⟩
  | copySelf _ _ contentType metadata _ _ =>
      ⟨b, k, v, true, source.bind (·.payload), contentType.or (source.bind (·.contentType)),
        metadata.getD ((source.map (·.meta)).getD (.object [])), c.now, c.actor⟩
  | restore _ _ =>
      ⟨b, k, v, true, source.bind (·.payload), source.bind (·.contentType),
        (source.map (·.meta)).getD (.object []), c.now, c.actor⟩
  | _ => ⟨b, k, v, true, none, none, .object [], c.now, c.actor⟩

/-- One statement of an action, run on the rows it sees; `v` is the next value of the
    version sequence. -/
def runStatement (a : WriteAction) (c : Context) (v : Nat) (rows : List ObjectRow) (l : Locals) :
    Statement → Except PgError (Locals × List RowWrite)
  | .lockLifecycle | .lockKey | .storeBlob => .ok (l, [])
  | .readSource =>
      match a.checkedSource b k rows with
      | .ok o => .ok ({ l with source := some o }, [])
      | .error e => .error e
  | .readLatest => .ok ({ l with current := rows.find? (isLatestOf b k) }, [])
  | .checkConditions =>
      match checkWritePreconditions l.current a.ifNoneMatch a.ifMatch with
      | .ok () => .ok (l, [])
      | .error e => .error e
  | .demote => .ok (l, [.mark ((rows.filter (isLatestOf b k)).map (·.versionId)) false])
  | .insertRow => .ok ({ l with version := v }, [.insert (a.row b k c v l.source)])
  | .deleteRow =>
      match a with
      | .deleteVersion version =>
          match rows.find? (isVersionOf b k version) with
          | some o => .ok ({ l with deleted := some o }, [.remove o.versionId])
          | none => .ok (l, [])
      | _ => .ok (l, [])
  | .promote =>
      if l.deleted.any (·.isLatest) then
        .ok (l, [.mark ((rows.filter (isGreatestOf rows b k)).map (·.versionId)) true])
      else .ok (l, [])

/-! ## 2. The interleaving -/

inductive TxStatus where
  | running
  | committed
  | aborted
deriving DecidableEq, Repr

/-- A transaction: what it does, the statements still to run, its variables and writes. -/
structure Writer where
  action : WriteAction
  context : Context
  status : TxStatus
  rest : List Statement
  locals : Locals
  writes : List RowWrite

def Writer.start (a : WriteAction) (c : Context) : Writer := ⟨a, c, .running, a.program, {}, []⟩

structure Committed where
  tid : Tid
  action : WriteAction
  context : Context
  version : Nat

/-- The committed rows of the key, the sequence, the locks, every transaction that has
    begun, and the commits so far. -/
structure Writers where
  rows : List ObjectRow
  seq : Nat
  lifecycle : List Tid
  keyLock : Option Tid
  tx : Tid → Option Writer
  history : List Committed

namespace Writers

/-- The key as earlier commits left it, with no transaction in flight. -/
def initial (rows : List ObjectRow) (seq : Nat) : Writers := ⟨rows, seq, [], none, fun _ => none, []⟩

def setTx (w : Writers) (t : Tid) (x : Writer) : Writers :=
  { w with tx := fun u => if u = t then some x else w.tx u }

def release (w : Writers) (t : Tid) : Writers :=
  { w with
    lifecycle := w.lifecycle.filter (· ≠ t)
    keyLock := if w.keyLock = some t then none else w.keyLock }

/-- The key lock waits for its holder.  Every writer takes the lifecycle lock in shared
    mode, so none waits for it. -/
def enabled (w : Writers) (t : Tid) : Statement → Prop
  | .lockKey => w.keyLock = none ∨ w.keyLock = some t
  | _ => True

def acquire (w : Writers) (t : Tid) : Statement → Writers
  | .lockLifecycle => { w with lifecycle := t :: w.lifecycle }
  | .lockKey => { w with keyLock := some t }
  | .insertRow => { w with seq := w.seq + 1 }
  | _ => w

end Writers

inductive WriterStep : Writers → Writers → Prop
  | start {w : Writers} (t : Tid) (a : WriteAction) (c : Context) (h : w.tx t = none) :
      WriterStep w (w.setTx t (.start a c))
  /-- The next statement, on what is committed now and the transaction's own writes. -/
  | run {w : Writers} (t : Tid) (x : Writer) (st : Statement) (rest : List Statement)
      (l : Locals) (ws : List RowWrite) (hx : w.tx t = some x) (hrun : x.status = .running)
      (hst : x.rest = st :: rest) (hen : w.enabled t st)
      (hok : runStatement b k x.action x.context (w.seq + 1) (overlay w.rows x.writes) x.locals st
        = .ok (l, ws)) :
      WriterStep w ((w.acquire t st).setTx t
        { x with rest := rest, locals := l, writes := x.writes ++ ws })
  /-- A statement raised, or the client went away. -/
  | rollback {w : Writers} (t : Tid) (x : Writer) (hx : w.tx t = some x)
      (hrun : x.status = .running) :
      WriterStep w ((w.release t).setTx t { x with status := .aborted })
  | commit {w : Writers} (t : Tid) (x : Writer) (hx : w.tx t = some x)
      (hrun : x.status = .running) (hdone : x.rest = []) :
      WriterStep w
        (({ w with
            rows := overlay w.rows x.writes
            history := w.history ++ [⟨t, x.action, x.context, x.locals.version⟩] } :
          Writers).release t |>.setTx t { x with status := .committed })
  /-- Writers of other keys draw from the sequence. -/
  | draw {w : Writers} (n : Nat) : WriterStep w { w with seq := w.seq + n }

/-- The states that interleaved writers reach from `w`. -/
abbrev WritersReach : Writers → Writers → Prop := Relation.ReflTransGen (WriterStep b k)

instance (w : Writers) (t : Tid) (st : Statement) : Decidable (w.enabled t st) := by
  cases st <;> unfold Writers.enabled <;> infer_instance

/-- What transaction `t` does when it is its turn: its next statement, a rollback when that
    raises, or its commit; `none` while it waits. -/
def Writers.advance (w : Writers) (t : Tid) : Option Writers :=
  match w.tx t with
  | none => none
  | some x =>
      if x.status = .running then
        match x.rest with
        | [] =>
            some (({ w with
              rows := overlay w.rows x.writes
              history := w.history ++ [⟨t, x.action, x.context, x.locals.version⟩] } :
              Writers).release t |>.setTx t { x with status := .committed })
        | st :: rest =>
            if w.enabled t st then
              match runStatement b k x.action x.context (w.seq + 1) (overlay w.rows x.writes)
                x.locals st with
              | .ok (l, ws) => some ((w.acquire t st).setTx t
                  { x with rest := rest, locals := l, writes := x.writes ++ ws })
              | .error _ => some ((w.release t).setTx t { x with status := .aborted })
            else none
      else none

theorem Writers.advance_step {w w' : Writers} {t : Tid} (h : w.advance b k t = some w') :
    WriterStep b k w w' := by
  unfold Writers.advance at h
  split at h
  · exact absurd h (by simp)
  · rename_i x hx
    split at h
    · rename_i hrun
      split at h
      · rename_i hdone
        obtain rfl := Option.some.inj h
        exact .commit t x hx hrun hdone
      · rename_i st rest hst
        split at h
        · rename_i hen
          split at h
          · rename_i l ws hok
            obtain rfl := Option.some.inj h
            exact .run t x st rest l ws hx hrun hst hen hok
          · obtain rfl := Option.some.inj h
            exact .rollback t x hx hrun
        · exact absurd h (by simp)
    · exact absurd h (by simp)

def Writers.schedule (w : Writers) (ts : List Tid) : Option Writers :=
  ts.foldlM (Writers.advance b k) w

theorem Writers.schedule_reach {w w' : Writers} {ts : List Tid}
    (h : w.schedule b k ts = some w') : WritersReach b k w w' := by
  induction ts generalizing w with
  | nil =>
    obtain rfl := Option.some.inj h
    exact .refl
  | cons t ts ih =>
    simp only [Writers.schedule, List.foldlM_cons, Option.bind_eq_bind,
      Option.bind_eq_some_iff] at h
    obtain ⟨w₁, hstep, hrest⟩ := h
    exact .head (Writers.advance_step b k hstep) (ih hrest)

/-! ## 3. What one write does, run alone -/

/-- An action as one atomic step on the rows of the key. -/
def serialWrite (c : Context) (v : Nat) (rows : List ObjectRow) (a : WriteAction) :
    Except PgError (List ObjectRow) :=
  let published (source : Option ObjectRow) : Except PgError (List ObjectRow) :=
    match checkWritePreconditions (rows.find? (isLatestOf b k)) a.ifNoneMatch a.ifMatch with
    | .ok () => .ok (rows.map (setLatest (isLatestOf b k) false) ++ [a.row b k c v source])
    | .error e => .error e
  match a with
  | .publish _ _ _ _ _ => published none
  | .copySelf _ _ _ _ _ _ | .restore _ _ =>
      match a.checkedSource b k rows with
      | .ok o => published (some o)
      | .error e => .error e
  | .deleteMarker => .ok (rows.map (setLatest (isLatestOf b k) false) ++ [a.row b k c v none])
  | .deleteVersion version =>
      match rows.find? (isVersionOf b k version) with
      | some d => .ok (afterRemoval rows b k version d)
      | none => .ok rows

/-- `SerialRun b k rows history rows'`: the commits of `history`, one after the other and
    each alone, take `rows` to `rows'`.  A row is inserted above all that are there. -/
inductive SerialRun : List ObjectRow → List Committed → List ObjectRow → Prop
  | nil (rows : List ObjectRow) : SerialRun rows [] rows
  | snoc {rows mid rows' : List ObjectRow} {history : List Committed} {e : Committed}
      (hrun : SerialRun rows history mid)
      (habove : e.action.inserts = true → ∀ r ∈ mid, r.versionId < e.version)
      (hwrite : serialWrite b k e.context e.version mid e.action = .ok rows') :
      SerialRun rows (history ++ [e]) rows'

end Key

end Pgs3
