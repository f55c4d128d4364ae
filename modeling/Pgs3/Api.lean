import Pgs3.Uploads

/-!
# The API as a transition system

Every mutating call of the SQL API is an `Op`; `exec` runs one as a transaction, in a
context of its own.  A `Run` is any finite sequence of calls from the empty database, one
committed after the other; a call that raises changes nothing but may have consumed
sequence values (`Db.skipIds`).  Runs are indexed by a condition on their calls, so that
the same notion serves for arbitrary runs and for runs with honest workers.
-/

namespace Pgs3

open Foundation Foundation.Tx

inductive UploadOp where
  | renew
  | beginPart (part : Int)
  | abortPart (part : Int)
  | putChunk (seq : Int) (data : Option Bytes) (part : Int) (checksum : Option Bytes)
  | completePart (part : Int) (checksum : Option Bytes)
  | putPart (part : Int) (body : Option Bytes) (checksum : Option Bytes)
  | complete (r : CompleteRequest)
  | abort

/-- The route that a bound overload compares an upload with. -/
structure Route where
  bucket : Text
  key : Text
  requireMultipart : Option Bool

/-- The mutating calls.  A worker-sealed completion also names the chunks that the worker
    fed to its digests; the database never sees them. -/
inductive Op where
  | createBucket (name : Text) (config : Jsonb)
  | deleteBucket (name : Text)
  | put (r : PutRequest)
  | delete (bucket key : Text) (version : Option Int)
  | deleteMany (bucket : Text) (keys : List (Option Text)) (versions : List (Option Int))
  | copy (r : CopyRequest)
  | restore (bucket key : Text) (version : Int) (ifMatch : Option Text)
  | forkBucket (source destination : Text) (config : Option Jsonb)
  | beginUpload (r : BeginUploadRequest)
  | onUpload (route : Option Route) (u : Uuid) (op : UploadOp)
  | workerPutChunk (actor : RoleName) (bucket key : Text) (u : Uuid) (seq : Int)
      (data serverSha256 : Bytes)
  | workerCompleteUpload (actor : RoleName) (bucket key : Text) (u : Uuid)
      (checksum : Option Bytes) (m : Seal) (chunks : List Bytes)
  | gcPendingUploads (maxAge limit : Int)
  | gcBlobs (limit : Int)

inductive Reply where
  | done
  | count (n : Nat)
  | uuid (u : Uuid)
  | object (info : ObjectInfo)
  | part (row : UploadPartRow)
  | chunk (blobId : Bytes) (size : Nat)
  | deleted (results : List DeleteResult)

def uploadOpBody (H : Digests) (c : Context) (u : Uuid) : UploadOp → DbTx Reply
  | .renew => do
      let _ ← uploadForUpdate c u
      pure .done
  | .beginPart part => do
      beginPart c u part
      pure .done
  | .abortPart part => do
      abortPart c u part
      pure .done
  | .putChunk seq data part checksum => do
      let n ← putChunk H c u seq data part checksum
      pure (.count n)
  | .completePart part checksum => do
      let row ← completePart H c u part checksum
      pure (.part row)
  | .putPart part body checksum => do
      let row ← putPart H c u part body checksum
      pure (.part row)
  | .complete r => do
      let info ← completeUpload H c u r
      pure (.object info)
  | .abort => do
      abortUpload c u
      pure .done

def bindRoute (c : Context) (u : Uuid) (route : Option Route) (m : DbTx Reply) : DbTx Reply :=
  match route with
  | none => m
  | some r => do
      let _ ← uploadForUpdateAt c u r.bucket r.key r.requireMultipart
      m

def opBody (H : Digests) (c : Context) : Op → DbTx Reply
  | .createBucket name config => do
      let _ ← createBucket c name config
      pure .done
  | .deleteBucket name => do
      deleteBucket c name
      pure .done
  | .put r => do
      let info ← put H c r
      pure (.object info)
  | .delete bucket key version => do
      let result ← delete c bucket key version
      pure (.deleted [result])
  | .deleteMany bucket keys versions => do
      let results ← deleteMany c bucket keys versions
      pure (.deleted results)
  | .copy r => do
      let info ← copy c r
      pure (.object info)
  | .restore bucket key version ifMatch => do
      let info ← restore c bucket key version ifMatch
      pure (.object info)
  | .forkBucket source destination config => do
      let n ← forkBucket c source destination config
      pure (.count n)
  | .beginUpload r => do
      let u ← beginUpload c r
      pure (.uuid u)
  | .onUpload route u op => bindRoute c u route (uploadOpBody H c u op)
  | .workerPutChunk actor bucket key u seq data serverSha256 => do
      logHashed data
      let r ← workerPutChunk c actor bucket key u seq data serverSha256
      pure (.chunk r.1 r.2)
  | .workerCompleteUpload actor bucket key u checksum m chunks => do
      chunks.forM logHashed
      logHashed chunks.flatten
      let info ← workerCompleteUpload H c actor bucket key u checksum m
      pure (.object info)
  | .gcPendingUploads maxAge limit => do
      let n ← gcPendingUploads c maxAge limit
      pure (.count n)
  | .gcBlobs limit => do
      let n ← gcBlobs limit
      pure (.count n)

/-- One call as a transaction. -/
def exec (H : Digests) (c : Context) (op : Op) (s : Db) : Except PgError Reply × Db :=
  commit (opBody H c op) s

/-- Sequence values drawn by rolled-back transactions stay drawn. -/
def Db.skipIds (s : Db) (versions buckets : Nat) : Db :=
  { s with objectVersionIdSeq := s.objectVersionIdSeq + versions,
           bucketIdSeq := s.bucketIdSeq + buckets }

/-- The states reached by calls that all meet `allowed` in the state they are made in. -/
inductive Run (H : Digests) (allowed : Context → Op → Db → Prop) : Db → Prop
  | empty : Run H allowed Db.empty
  | call {s : Db} (c : Context) (op : Op) (h : Run H allowed s) (ha : allowed c op s) :
      Run H allowed (exec H c op s).2
  | skip {s : Db} (versions buckets : Nat) (h : Run H allowed s) :
      Run H allowed (s.skipIds versions buckets)

def Reachable (H : Digests) (s : Db) : Prop := Run H (fun _ _ _ => True) s

def execs (H : Digests) : List (Context × Op) → Db → Db
  | [], s => s
  | (c, op) :: rest, s => execs H rest (exec H c op s).2

theorem Run.execs {H : Digests} {allowed : Context → Op → Db → Prop} {s : Db}
    (h : Run H allowed s) {calls : List (Context × Op)}
    (ha : ∀ p ∈ calls, ∀ t, allowed p.1 p.2 t) : Run H allowed (execs H calls s) := by
  induction calls generalizing s with
  | nil => exact h
  | cons p rest ih =>
    obtain ⟨c, op⟩ := p
    refine ih (h.call c op (ha (c, op) List.mem_cons_self s)) ?_
    intro q hq
    exact ha q (List.mem_cons_of_mem _ hq)

/-- **Invariants of runs.**  What holds of the empty database, is kept by the body of every
    allowed call and does not mind skipped sequence values holds in every state of a run. -/
theorem Run.invariant {H : Digests} {allowed : Context → Op → Db → Prop} {I : Db → Prop}
    (h0 : I Db.empty)
    (hcall : ∀ c op s r s', I s → allowed c op s → Yields (opBody H c op) s r s' → I s')
    (hskip : ∀ s v b, I s → I (s.skipIds v b)) {s : Db} (h : Run H allowed s) : I s := by
  induction h with
  | empty => exact h0
  | @call s c op _ ha ih =>
    cases he : exec H c op s with
    | mk r s' =>
      cases r with
      | ok a => exact hcall c op s a s' ih ha (commit_ok_iff.mp he)
      | error e =>
        -- a call that raised leaves the committed state alone
        have hs : s' = s := commit_error he
        exact hs ▸ ih
  | skip v b _ ih => exact hskip _ v b ih

/-- An invariant that every call keeps, whatever its arguments. -/
theorem Reachable.invariant {H : Digests} {I : Db → Prop} (h0 : I Db.empty)
    (hcall : ∀ c op, Keeps I (opBody H c op)) (hskip : ∀ s v b, I s → I (s.skipIds v b))
    {s : Db} (h : Reachable H s) : I s :=
  Run.invariant h0 (fun c op s r s' hI _ hy => hcall c op s r s' hI hy) hskip h

end Pgs3
