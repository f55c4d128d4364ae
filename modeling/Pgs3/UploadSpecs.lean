import Pgs3.Uploads
import Pgs3.StatementSpecs

/-!
# What the upload steps do

Inversion lemmas for the calls that lock, renew or mark an upload.  They write the upload
table and nothing else.
-/

namespace Pgs3

open Foundation Foundation.Tx

variable {c : Context} {u : Uuid} {s s' : Db}

/-- Only the upload table differs. -/
def OnlyUploads (s s' : Db) : Prop := s' = { s with upload := s'.upload }

theorem yields_updateUpload {f : UploadRow → UploadRow} {hf : ∀ r, (f r).uploadId = r.uploadId}
    {r : Unit} (h : Yields (updateUpload u f hf) s r s') :
    OnlyUploads s s' ∧ s'.upload.lookup u = (s.upload.lookup u).map f := by
  obtain rfl := yields_modify.mp h
  refine ⟨rfl, ?_⟩
  simp only [Table.lookup_update]
  cases hl : s.upload.lookup u with
  | none => rfl
  | some row => simp only [Option.map_some, if_pos (Table.lookup_key hl)]

theorem yields_uploadForUpdate {row : UploadRow} (h : Yields (uploadForUpdate c u) s row s') :
    OnlyUploads s s' ∧ s'.upload.lookup u = some row ∧ ∃ r, s.upload.lookup u = some r ∧
      r.state = .pending ∧ row = { r with leaseExpiresAt := c.now + fiveMinutes } := by
  simp only [uploadForUpdate, yields_get_bind, yields_orRaise_bind] at h
  obtain ⟨r, hr, h⟩ := h
  obtain ⟨_, s₁, hupdate, hend⟩ := yields_bind.mp h
  obtain ⟨hs, hlook'⟩ := yields_updateUpload hupdate
  obtain ⟨rfl, rfl⟩ := yields_pure.mp hend
  rw [Option.filter_eq_some_iff] at hr
  obtain ⟨hlook, hr⟩ := hr
  rw [decide_eq_true_eq] at hr
  rw [hlook] at hlook'
  exact ⟨hs, hlook', r, hlook, hr.1, rfl⟩

theorem yields_uploadForUpdateAt {bucket k : Text} {multi : Option Bool} {row : UploadRow}
    (h : Yields (uploadForUpdateAt c u bucket k multi) s row s') :
    OnlyUploads s s' ∧ s'.upload.lookup u = some row ∧ row.uploadId = u ∧ row.key = k ∧
      (∀ m ∈ multi, row.multipart = m) ∧
      ∃ b, s.bucket.lookup row.bucketId = some b ∧ b.name = bucket := by
  obtain ⟨row', s₁, hrow, hrest⟩ := yields_bind.mp h
  obtain ⟨hs, hlook, _⟩ := yields_uploadForUpdate hrow
  simp only [yields_get_bind, yields_raiseIf_bind, yields_pure, not_or, not_exists, not_and,
    Bool.not_eq_false, Option.any_eq_true, decide_eq_true_eq, not_not] at hrest
  obtain ⟨⟨⟨b, hb, hname⟩, hkey, hmulti⟩, rfl, rfl⟩ := hrest
  refine ⟨hs, hlook, Table.lookup_key hlook, hkey, hmulti, b, ?_, hname⟩
  rw [hs] at hb
  exact hb

theorem yields_bucketNameOf {b : Nat} {name : Text} (h : Yields (bucketNameOf b) s name s') :
    s' = s ∧ ∃ r, s.bucket.lookup b = some r ∧ r.name = name := by
  simp only [bucketNameOf, yields_get_bind, yields_orRaise_bind, yields_pure] at h
  obtain ⟨r, hr, rfl, rfl⟩ := h
  exact ⟨rfl, r, hr, rfl⟩

theorem yields_workerSetActor {actor : RoleName} {c' : Context}
    (h : Yields (workerSetActor c actor) s c' s') :
    s' = s ∧ c.workerMaySet actor = true ∧ c' = { c with actor := actor } := by
  simp only [workerSetActor, yields_raiseIf_bind, yields_pure, Bool.not_eq_false] at h
  exact ⟨h.2.2, h.1, h.2.1⟩

end Pgs3
