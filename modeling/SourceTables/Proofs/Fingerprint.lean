import SourceTables.Proofs.Files.Lookup

/-!
# `SourceTables.Proofs.Fingerprint`: agreement of fingerprints

Agreement compares paths by their components, so it is coarser than equality, and still an
equivalence: `same_refl`, `same_symm`, `same_trans`.

* `path_of_compute`: a fingerprint holds the path that it was taken of.
* `same_of_compute`: two fingerprints that are taken of one tree at paths with the same components
  agree.
-/

set_option autoImplicit false

namespace SourceTables

/-- Paths agree when their components are equal. -/
theorem Path.same_iff {p q : Path} : p.same q = true ↔ p.components = q.components := by
  simp [Path.same]

namespace Fingerprint

/-- What agreement of fingerprints says. -/
theorem same_iff {a b : Fingerprint} :
    a.same b = true ↔ a.path.components = b.path.components ∧ a.size = b.size ∧
      a.modified = b.modified ∧ a.hash = b.hash := by
  simp [same, Path.same_iff, and_assoc]

@[simp] theorem same_refl (a : Fingerprint) : a.same a = true :=
  same_iff.mpr ⟨rfl, rfl, rfl, rfl⟩

theorem same_symm {a b : Fingerprint} (h : a.same b = true) : b.same a = true := by
  obtain ⟨hp, hs, hm, hh⟩ := same_iff.mp h
  exact same_iff.mpr ⟨hp.symm, hs.symm, hm.symm, hh.symm⟩

theorem same_trans {a b c : Fingerprint} (hab : a.same b = true) (hbc : b.same c = true) :
    a.same c = true := by
  obtain ⟨hp, hs, hm, hh⟩ := same_iff.mp hab
  obtain ⟨hp', hs', hm', hh'⟩ := same_iff.mp hbc
  exact same_iff.mpr ⟨hp.trans hp', hs.trans hs', hm.trans hm', hh.trans hh'⟩

theorem same_comm (a b : Fingerprint) : a.same b = b.same a := by
  rw [Bool.eq_iff_iff]
  exact ⟨same_symm, same_symm⟩

/-- Fingerprints that agree agree with the same ones. -/
theorem same_congr_right {a b c : Fingerprint} (h : b.same c = true) : a.same b = a.same c := by
  rw [Bool.eq_iff_iff]
  exact ⟨fun hab => same_trans hab h, fun hac => same_trans hac (same_symm h)⟩

/-- A fingerprint holds the path that it was taken of. -/
theorem path_of_compute {fs : Files} {p : Path} {withHash : Bool} {f : Fingerprint}
    (h : compute fs p withHash = .ok f) : f.path = p := by
  unfold compute at h
  split at h
  · cases h
  · cases h; rfl
  · split at h
    · cases h
    · cases h; rfl

/-- Fingerprints that are taken of one tree at paths with the same components agree. -/
theorem same_of_compute {fs : Files} {p q : Path} {withHash : Bool} {f g : Fingerprint}
    (hpq : p.same q = true) (hf : compute fs p withHash = .ok f)
    (hg : compute fs q withHash = .ok g) : f.same g = true := by
  cases hp : fs.stat p with
  | error e =>
    rw [compute, hp] at hf
    cases hf
  | ok a =>
    cases hq : fs.stat q with
    | error e =>
      rw [compute, hq] at hg
      cases hg
    | ok b =>
      have hab := Files.stat_eq_of_same hpq hp hq
      subst hab
      have hpath : f.path.components = g.path.components := by
        rw [path_of_compute hf, path_of_compute hg]
        exact Path.same_iff.mp hpq
      rw [compute, hp] at hf
      rw [compute, hq] at hg
      -- Beside the path, a fingerprint depends on what the path leads to alone.
      obtain ⟨location, content | _ | _⟩ := b
      · cases hf
        cases hg
        exact same_iff.mpr ⟨hpath, rfl, rfl, rfl⟩
      all_goals
        cases withHash
        · cases hf
          cases hg
          exact same_iff.mpr ⟨hpath, rfl, rfl, rfl⟩
        · cases hf

end Fingerprint

end SourceTables
