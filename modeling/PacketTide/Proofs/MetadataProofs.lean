import PacketTide.FileSystem.Proofs.AttrProofs
import PacketTide.ManifestExchange
import PacketTide.Proofs.InstalledProofs

/-!
# The metadata of installed trees

`install` sets the metadata of every file, then that of the directories from the last to the first, and
that of the root when the marker is gone. Nothing that comes later changes what has been set.
-/

namespace PacketTide

open Effects FileSystem Prog Text FS

variable {home : Loc} {v : View} {fs t : FS} {root path : Path} {m : Manifest}
  {e : ManifestEntry} {entries : List ManifestEntry} {base : Option (List UInt8)} {name : Name}

/-! ## Times -/

/-- The metadata of all entries of a kind has been set, and no other. -/
structure SetFor (kind : EntryKind) (p : Loc) (entries : List ManifestEntry) (fs t : FS) : Prop where
  set : ∀ e ∈ entries, e.kind = kind → t.attrAt (p ++ pathFromBytes e.path) = some e.attr
  kept : ∀ q, (∀ e ∈ entries, e.kind = kind → q ≠ p ++ pathFromBytes e.path) → t.attrAt q = fs.attrAt q

namespace SetFor

variable {kind : EntryKind} {p : Loc} {u : FS}

theorem nil : SetFor kind p [] fs fs := ⟨fun _ he => (nomatch he), fun _ _ => rfl⟩

theorem skip (h : SetFor kind p entries fs t) (hk : e.kind ≠ kind) : SetFor kind p (e :: entries) fs t where
  set := List.forall_mem_cons.2 ⟨fun hk' => absurd hk' hk, h.set⟩
  kept q hq := h.kept q fun e' he' => hq e' (List.mem_cons_of_mem _ he')

/-- What is set first stays, because no other entry lies at its place. -/
theorem cons (h : SetFor kind p entries u t)
    (hinj : ∀ e' ∈ entries, pathFromBytes e'.path = pathFromBytes e.path → e' = e)
    (hset : u.attrAt = Function.update fs.attrAt (p ++ pathFromBytes e.path) (some e.attr))
    (hk : e.kind = kind) : SetFor kind p (e :: entries) fs t where
  set := by
    refine List.forall_mem_cons.2 ⟨fun _ => ?_, h.set⟩
    by_cases hagain : ∃ e' ∈ entries, e'.kind = kind ∧ pathFromBytes e.path = pathFromBytes e'.path
    · obtain ⟨e', he', hk', hpath⟩ := hagain
      rw [hpath, h.set e' he' hk', hinj e' he' hpath.symm]
    · rw [h.kept _ fun e' he' hk' heq => hagain ⟨e', he', hk', List.append_cancel_left heq⟩, hset,
        Function.update_self]
  kept q hq := by
    obtain ⟨hhead, htail⟩ := List.forall_mem_cons.1 hq
    rw [h.kept q htail, hset, Function.update_of_ne (hhead hk)]

end SetFor

section Example

open Sample

/-- The state after the one file has been received. -/
def staged : FS :=
  ((do
    let staging ← prepareStaging oneFile ⟨some (ascii "."), [d]⟩
    receiveFiles (fun _ => receiveSeven) oneFile staging 0 oneFile.entries).run
      machine FS.empty).2

end Example

end PacketTide
