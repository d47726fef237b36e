import Mathlib.Data.List.Nodup
import SourceTables.Proofs.Path.Below

/-!
# `SourceTables.Proofs.Path.Parts`: the components of joined paths and of parents

What is known of a path through its components, whatever it was written like.

The theorems:

* `isName_of_mem`, `components_ofComponents`: components that are names can be written down again.
* `components_join_path`: a relative path in a directory has the directory's components and its own.
* `parent?_isPrefix`: the components of a parent come first among those of the path.
* `pairwise_sort`, `sort_perm`: sorted paths are in order, and no others than before.
* `map_components_sort`: the order that they were in before makes no difference.
-/

set_option autoImplicit false

namespace SourceTables.Path

/-- No piece holds a slash. -/
theorem slash_of_mem_rawPieces {p : Path} {s : String} (h : s ∈ p.rawPieces) :
    ∀ c ∈ s.toList, (c == '/') = false := by
  have hpiece : s ∈ (Text.split (· == '/') p.text.toList).map String.ofList := by
    unfold rawPieces at h
    dsimp only at h
    split at h
    · exact List.mem_of_mem_drop h
    · exact h
  obtain ⟨piece, hmem, rfl⟩ := List.mem_map.mp hpiece
  rw [String.toList_ofList]
  exact Text.not_of_mem_split _ _ piece hmem

/-- The pieces that count are not empty. -/
theorem of_mem_piecesOf {absolute : Bool} {raw : List String} {piece : Piece}
    (h : piece ∈ piecesOf absolute raw) (hcounts : piece.counts = true) :
    piece.text ∈ raw ∧ piece.text ≠ "" := by
  have later {s : String} (hs : s ∈ raw) (h : (Piece.mk s (s != "" && s != ".")).counts = true) :
      s ∈ raw ∧ s ≠ "" := by
    simp only [Bool.and_eq_true, bne_iff_ne] at h
    exact ⟨hs, h.1⟩
  cases raw with
  | nil => cases h
  | cons s rest =>
    obtain rfl | h := List.mem_cons.mp h
    · split at hcounts
      · next habsolute =>
        rw [if_pos habsolute]
        exact later (.head _) hcounts
      · next habsolute =>
        rw [if_neg habsolute]
        exact ⟨.head _, bne_iff_ne.mp hcounts⟩
    · obtain ⟨t, ht, rfl⟩ := List.mem_map.mp h
      exact later (.tail _ ht) hcounts

/-- A component that is a name is one that a file can have. -/
theorem isName_of_mem {p : Path} {name : String} (h : .name name ∈ p.components) : IsName name := by
  rw [components_eq, List.mem_append] at h
  have h : .name name ∈ below p.isAbsolute p.rawPieces := by
    refine h.resolve_left fun hroot => ?_
    split at hroot
    · cases List.mem_singleton.mp hroot
    · cases hroot
  obtain ⟨piece, hpiece, hname⟩ := List.mem_map.mp h
  obtain ⟨hpiece, hcounts⟩ := List.mem_filter.mp hpiece
  obtain ⟨hmem, hne⟩ := of_mem_piecesOf hpiece hcounts
  unfold Piece.component at hname
  split at hname
  · cases hname
  · next hcurrent =>
    split at hname
    · cases hname
    · next hparent =>
      cases hname
      exact ⟨hne, hcurrent, hparent, slash_of_mem_rawPieces hmem⟩

/-- The path made of names has these names. -/
theorem components_ofComponents {names : List String} (hnames : ∀ n ∈ names, IsName n) :
    (ofComponents (names.map .name)).components = names.map .name := by
  have h := components_descend ⟨""⟩ hnames
  unfold ofComponents
  rw [List.foldl_map]
  exact h

/-- Pieces that are no first pieces stand for the same, unless the first one is a dot. -/
theorem below_append_path {rel : Path} (hrel : rel.isAbsolute = false) (hdot : .current ∉ rel.components)
    (absolute : Bool) (raw : List String) :
    below absolute (raw ++ rel.rawPieces) = below absolute raw ++ rel.components := by
  have hcomponents : rel.components = below false rel.rawPieces := by
    rw [components_eq, hrel]
    rfl
  rw [hcomponents] at hdot ⊢
  generalize rel.rawPieces = more at hdot ⊢
  -- As a first piece a dot would be a component.
  have hlater : ((more.map fun s => Piece.mk s (s != "" && s != ".")).filter Piece.counts).map
      Piece.component = below false more := by
    cases more with
    | nil => rfl
    | cons s rest =>
      have hs : (s != ".") = true := by
        rw [bne_iff_ne]
        rintro rfl
        exact hdot (by simp [below, piecesOf, Piece.component])
      simp only [below, piecesOf, List.map_cons, hs, Bool.and_true, Bool.false_eq_true, if_false]
  cases raw with
  | cons s rest =>
    rw [List.cons_append, ← hlater]
    simp only [below, piecesOf, List.map_append]
    rw [← List.cons_append, List.filter_append, List.map_append]
  | nil =>
    cases absolute with
    | false => rfl
    | true =>
      rw [← hlater]
      cases more with
      | nil => rfl
      | cons s rest => simp [below, piecesOf]

/-- The components of a path in a directory. -/
theorem components_join_path (dir : Path) {rel : Path} (hrel : rel.isAbsolute = false)
    (hdot : .current ∉ rel.components) :
    (dir.join rel).components = dir.components ++ rel.components := by
  by_cases hempty : dir.text.isEmpty = true
  · have hdir : dir = ⟨""⟩ := congrArg Path.mk (String.isEmpty_iff.mp hempty)
    subst hdir
    unfold join
    rw [if_pos (by simp)]
    rfl
  · have hjoin : (dir.join rel).isAbsolute = dir.isAbsolute ∧
        (dir.join rel).rawPieces = dir.above ++ rel.rawPieces := by
      unfold join above
      rw [hrel, Bool.false_or, if_neg hempty, if_neg hempty]
      obtain ⟨c, cs, hcs⟩ : ∃ c cs, dir.text.toList = c :: cs :=
        List.exists_cons_of_ne_nil (by simpa using hempty)
      by_cases hslash : (dir.text.toList.getLast? == some '/') = true
      · rw [if_pos hslash, if_pos hslash]
        obtain ⟨s, rfl⟩ := eq_append_slash hslash
        have hdir := rawPieces_append s "" nofun
        rw [String.append_empty] at hdir
        refine ⟨by simp only [isAbsolute, String.toList_append, hcs]; simp, ?_⟩
        rw [rawPieces_append_path s hrel, hdir, List.dropLast_concat]
      · rw [if_neg hslash, if_neg hslash, rawPieces_append_path _ hrel, if_neg hempty]
        exact ⟨by simp [isAbsolute, hcs], rfl⟩
    rw [components_eq, components_eq, hjoin.1, hjoin.2, below_append_path hrel hdot, below_above,
      List.append_assoc]

/-- Texts between slashes are the pieces of the text that they make. -/
theorem split_intercalate {s : String} {rest : List String}
    (h : ∀ t ∈ s :: rest, ∀ c ∈ t.toList, (c == '/') = false) :
    Text.split (· == '/') ("/".intercalate (s :: rest)).toList = (s :: rest).map String.toList := by
  induction rest generalizing s with
  | nil =>
    rw [String.intercalate_singleton, Text.split_eq_singleton _ _ (h s (.head _))]
    rfl
  | cons t rest ih =>
    have hlist : ("/".intercalate (s :: t :: rest)).toList
        = s.toList ++ '/' :: ("/".intercalate (t :: rest)).toList := by
      simp [String.intercalate_cons_cons]
    rw [hlist, Text.split_append _ _ rfl, ih fun u hu => h u (.tail _ hu),
      Text.split_eq_singleton _ _ (h s (.head _))]
    rfl

/-- Pieces without those at the end that do not count are the first ones. -/
theorem trimEnd_isPrefix (pieces : List Piece) : trimEnd pieces <+: pieces := by
  unfold trimEnd
  have h := List.dropWhile_suffix (l := pieces.reverse) fun piece => !piece.counts
  simpa using List.reverse_prefix.mpr h

@[simp] theorem map_text_piecesOf (absolute : Bool) (raw : List String) :
    (piecesOf absolute raw).map Piece.text = raw := by
  cases raw with
  | nil => rfl
  | cons s rest => cases absolute <;> simp [piecesOf, Function.comp_def]

theorem take_piecesOf (absolute : Bool) (raw : List String) (n : Nat) :
    (piecesOf absolute raw).take n = piecesOf absolute (raw.take n) := by
  cases raw with
  | nil => simp [piecesOf]
  | cons s rest =>
    cases n with
    | zero => rfl
    | succ n => simp [piecesOf, List.map_take]

/-- The first piece of a relative path that is not empty tells that it is relative. -/
theorem isAbsolute_of_rawPieces {p : Path} {s : String} {raw rest : List String}
    (hraw : p.rawPieces = s :: raw) (habsolute : p.isAbsolute = false) (htext : p.text ≠ "") :
    (⟨"/".intercalate (s :: rest)⟩ : Path).isAbsolute = false := by
  obtain ⟨c, cs, hcs⟩ : ∃ c cs, p.text.toList = c :: cs :=
    List.exists_cons_of_ne_nil fun h => htext (String.toList_eq_nil_iff.mp h)
  have hc : (c == '/') = false := by simpa [isAbsolute, hcs] using habsolute
  obtain ⟨piece, pieces, -, hsplit⟩ := Text.split_cons_of_not (· == '/') c cs hc
  have hs : s.toList = c :: piece := by
    have hraw' : p.rawPieces = String.ofList (c :: piece) :: pieces.map String.ofList := by
      unfold rawPieces
      rw [habsolute, hcs, hsplit]
      rfl
    rw [hraw] at hraw'
    rw [(List.cons.inj hraw').1, String.toList_ofList]
  cases rest with
  | nil => simpa [isAbsolute, hs] using hc
  | cons t rest => simpa [isAbsolute, String.intercalate_cons_cons, hs] using hc

/-- The components of a path that is written with some pieces. -/
theorem components_intercalate {raw : List String} (absolute : Bool)
    (hslash : ∀ s ∈ raw, ∀ c ∈ s.toList, (c == '/') = false)
    (hrelative : absolute = false → (⟨"/".intercalate raw⟩ : Path).isAbsolute = false) :
    (⟨if absolute then "/" ++ "/".intercalate raw else "/".intercalate raw⟩ : Path).components
      = (if absolute then [.root] else []) ++ below absolute raw := by
  cases raw with
  | nil => cases absolute <;> rfl
  | cons s rest =>
    have hsplit := split_intercalate hslash
    have htexts : ((s :: rest).map String.toList).map String.ofList = s :: rest := by
      simp [Function.comp_def]
    rw [components_eq]
    cases absolute with
    | true =>
      have hraw : (⟨"/" ++ "/".intercalate (s :: rest)⟩ : Path).rawPieces = s :: rest := by
        have hlist : ("/" ++ "/".intercalate (s :: rest)).toList
            = '/' :: ("/".intercalate (s :: rest)).toList := by simp
        unfold rawPieces isAbsolute
        rw [hlist, Text.split, if_pos (by rfl), hsplit]
        simp
      have habsolute : (⟨"/" ++ "/".intercalate (s :: rest)⟩ : Path).isAbsolute = true := by
        simp [isAbsolute]
      simp only [if_true, habsolute, hraw]
    | false =>
      have habsolute := hrelative rfl
      have hraw : (⟨"/".intercalate (s :: rest)⟩ : Path).rawPieces = s :: rest := by
        rw [rawPieces, habsolute, hsplit]
        exact htexts
      simp only [Bool.false_eq_true, if_false, habsolute, hraw]

/-- The components of a parent come first among those of the path. -/
theorem parent?_isPrefix {p q : Path} (h : p.parent? = some q) : q.components <+: p.components := by
  unfold parent? at h
  split at h
  · cases h
  · next last above hpieces =>
    -- The pieces that are left are the first ones of the path.
    have hstarts : trimEnd above.reverse <+: p.pieces := by
      refine (trimEnd_isPrefix _).trans (List.IsPrefix.trans ?_ (trimEnd_isPrefix p.pieces))
      have hreverse : trimEnd p.pieces = above.reverse ++ [last] := by
        rw [← List.reverse_reverse (trimEnd p.pieces), hpieces, List.reverse_cons]
      exact hreverse ▸ List.prefix_append _ _
    obtain ⟨n, hn⟩ : ∃ n, trimEnd above.reverse = piecesOf p.isAbsolute (p.rawPieces.take n) :=
      ⟨_, (List.prefix_iff_eq_take.mp hstarts).trans (take_piecesOf _ _ _)⟩
    have hbelow : below p.isAbsolute (p.rawPieces.take n) <+: below p.isAbsolute p.rawPieces := by
      unfold below
      rw [← take_piecesOf]
      exact ((List.take_prefix n _).filter _).map _
    have htext : textOf (trimEnd above.reverse) = "/".intercalate (p.rawPieces.take n) := by
      rw [hn, textOf, map_text_piecesOf]
    cases h
    rw [htext, p.components_eq]
    have hslash : ∀ s ∈ p.rawPieces.take n, ∀ c ∈ s.toList, (c == '/') = false :=
      fun s hs => slash_of_mem_rawPieces (List.mem_of_mem_take hs)
    have hq := components_intercalate p.isAbsolute hslash fun habsolute => by
      have hempty : p.text ≠ "" := fun hempty => by
        have hp : p = ⟨""⟩ := congrArg Path.mk hempty
        rw [hp] at hpieces
        cases hpieces
      cases hraw : p.rawPieces with
      | nil => rw [List.take_nil]; rfl
      | cons s raw =>
        cases n with
        | zero => rfl
        | succ n => exact isAbsolute_of_rawPieces hraw habsolute hempty
    rw [hq]
    exact (List.prefix_append_right_inj _).mpr hbelow

/-- Sorted paths are in order. -/
theorem pairwise_sort (ps : List Path) :
    (sort ps).Pairwise fun p q => (p.order q).isLE = true := by
  -- Paths are compared as the lists of their components are.
  refine List.pairwise_mergeSort (fun p q r hpq hqr => ?_) (fun p q => ?_) ps
  · have htrans (xs ys zs : List Component) (hxy : (compare xs ys).isLE = true)
        (hyz : (compare ys zs).isLE = true) : (compare xs zs).isLE = true :=
      Std.TransCmp.isLE_trans hxy hyz
    exact htrans _ _ _ hpq hqr
  · have hswap (xs ys : List Component) : compare ys xs = (compare xs ys).swap :=
      Std.OrientedCmp.eq_swap
    show ((compare p.components q.components).isLE || (compare q.components p.components).isLE) = true
    rw [hswap p.components]
    cases compare p.components q.components <;> rfl

/-- Sorting leaves out no path and adds none. -/
theorem sort_perm (ps : List Path) : (sort ps).Perm ps := List.mergeSort_perm ps _

/-- What order paths were in makes no difference to their components once they are sorted. -/
theorem map_components_sort {ps qs : List Path} (h : ps.Perm qs) :
    (sort ps).map components = (sort qs).map components := by
  have hordered (rs : List Path) :
      ((sort rs).map components).Pairwise fun cs ds => (compare cs ds).isLE = true :=
    List.pairwise_map.mpr (pairwise_sort rs)
  refine List.Perm.eq_of_pairwise (fun cs ds _ _ hcd hdc => ?_) (hordered ps) (hordered qs)
    (((sort_perm ps).trans (h.trans (sort_perm qs).symm)).map components)
  exact Std.LawfulEqCmp.eq_of_compare (Std.OrientedCmp.isLE_antisymm hcd hdc)

/-- A path that starts at the root has the root among its components. -/
theorem isAbsolute_eq_false {p : Path} (h : .root ∉ p.components) : p.isAbsolute = false := by
  rw [components_eq, List.mem_append, not_or] at h
  cases habsolute : p.isAbsolute with
  | false => rfl
  | true =>
    rw [habsolute] at h
    exact absurd (List.mem_singleton.mpr rfl) h.1

end SourceTables.Path
