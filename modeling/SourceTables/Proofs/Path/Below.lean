import SourceTables.Proofs.Path

/-!
# `SourceTables.Proofs.Path.Below`: names below a directory

A walk makes the path of what it finds by joining one name after another to the directory that it starts
from. Seen from that directory the path is those names, and joined to the directory again it is the path
that the walk has made.

The theorems:

* `components_descend`: the components of such a path.
* `relativeTo?_descend`: the path as seen from the directory.
* `join_names`: the names joined to the directory at once.
-/

set_option autoImplicit false

namespace SourceTables.Path

/-- The path that names lead to from a directory, one after another. -/
def descend (dir : Path) (names : List String) : Path := names.foldl child dir

/-- Names between slashes. -/
def ofNames (names : List String) : Path := ⟨"/".intercalate names⟩

section

variable {dir : Path} {name : String} {names : List String}

theorem descend_cons (dir : Path) (name : String) (names : List String) :
    dir.descend (name :: names) = (dir.join ⟨name⟩).descend names := rfl

/-- The path of a name in a directory is not empty and ends in the name. -/
theorem text_join (dir : Path) (hname : IsName name) :
    ∃ s, (dir.join ⟨name⟩).text = s ++ name := by
  unfold join
  rw [hname.isAbsolute, Bool.false_or]
  split
  · exact ⟨"", by simp⟩
  · split
    · exact ⟨dir.text, rfl⟩
    · exact ⟨dir.text ++ "/", rfl⟩

theorem isEmpty_join (dir : Path) (hname : IsName name) : (dir.join ⟨name⟩).text.isEmpty = false := by
  obtain ⟨s, hs⟩ := text_join dir hname
  rw [hs, Bool.eq_false_iff, ne_eq, String.isEmpty_iff]
  intro hempty
  refine hname.nonempty ?_
  have hlist := congrArg String.toList hempty
  simp only [String.toList_append, String.toList_empty, List.append_eq_nil_iff] at hlist
  exact String.toList_eq_nil_iff.mp hlist.2

theorem endsInSlash_join (dir : Path) (hname : IsName name) :
    ((dir.join ⟨name⟩).text.toList.getLast? == some '/') = false := by
  obtain ⟨s, hs⟩ := text_join dir hname
  have hne : name.toList ≠ [] := fun h => hname.nonempty (String.toList_eq_nil_iff.mp h)
  rw [hs, String.toList_append, List.getLast?_append, List.getLast?_eq_some_getLast hne]
  exact hname.slash _ (List.getLast_mem hne)

theorem above_join (dir : Path) (hname : IsName name) :
    (dir.join ⟨name⟩).above = dir.above ++ [name] := by
  rw [above, isEmpty_join dir hname, endsInSlash_join dir hname, rawPieces_join dir hname]
  simp

/-! ### Paths that names lead to -/

/-- The pieces of such a path. -/
theorem rawPieces_descend (dir : Path) (hne : names ≠ []) (hnames : ∀ n ∈ names, IsName n) :
    (dir.descend names).rawPieces = dir.above ++ names := by
  induction names generalizing dir with
  | nil => exact absurd rfl hne
  | cons name rest ih =>
    have hname := hnames name (.head _)
    cases rest with
    | nil => exact rawPieces_join dir hname
    | cons next rest =>
      rw [descend_cons, ih _ (List.cons_ne_nil _ _) fun n hn => hnames n (.tail _ hn), above_join dir hname,
        List.append_assoc]
      rfl

theorem isAbsolute_descend (dir : Path) (hnames : ∀ n ∈ names, IsName n) :
    (dir.descend names).isAbsolute = dir.isAbsolute := by
  induction names generalizing dir with
  | nil => rfl
  | cons name rest ih =>
    rw [descend_cons, ih _ fun n hn => hnames n (.tail _ hn), isAbsolute_join dir (hnames name (.head _))]

/-- The components of such a path. -/
theorem components_descend (dir : Path) (hnames : ∀ n ∈ names, IsName n) :
    (dir.descend names).components = dir.components ++ names.map .name := by
  induction names generalizing dir with
  | nil => exact (List.append_nil _).symm
  | cons name rest ih =>
    rw [descend_cons, ih _ fun n hn => hnames n (.tail _ hn), components_join dir (hnames name (.head _)),
      List.append_assoc]
    rfl

/-- The first name tells that the path is relative. -/
theorem isAbsolute_ofNames (hnames : ∀ n ∈ names, IsName n) : (ofNames names).isAbsolute = false := by
  cases names with
  | nil => rfl
  | cons name rest =>
    have hname := hnames name (.head _)
    obtain ⟨c, cs, hcs⟩ : ∃ c cs, name.toList = c :: cs :=
      List.exists_cons_of_ne_nil fun h => hname.nonempty (String.toList_eq_nil_iff.mp h)
    have hc := hname.slash c (hcs ▸ List.mem_cons_self)
    cases rest with
    | nil => simpa [ofNames, isAbsolute, hcs] using hc
    | cons next rest => simpa [ofNames, isAbsolute, String.intercalate_cons_cons, hcs] using hc

/-- Names that are joined at once lead to where they lead one after another. -/
theorem join_names (dir : Path) (hne : names ≠ []) (hnames : ∀ n ∈ names, IsName n) :
    dir.join (ofNames names) = dir.descend names := by
  induction names generalizing dir with
  | nil => exact absurd rfl hne
  | cons name rest ih =>
    cases rest with
    | nil => rfl
    | cons next rest =>
      have hname := hnames name (.head _)
      have hrest : ∀ n ∈ next :: rest, IsName n := fun n hn => hnames n (.tail _ hn)
      rw [descend_cons, ← ih _ (List.cons_ne_nil _ _) hrest]
      have hjoin : (dir.join ⟨name⟩).join (ofNames (next :: rest))
          = ⟨(dir.join ⟨name⟩).text ++ "/" ++ (ofNames (next :: rest)).text⟩ := by
        rw [join, isAbsolute_ofNames hrest, isEmpty_join dir hname, endsInSlash_join dir hname]
        rfl
      rw [hjoin, join, isAbsolute_ofNames hnames, join, hname.isAbsolute]
      simp only [Bool.false_or, ofNames, String.intercalate_cons_cons]
      by_cases hempty : dir.text.isEmpty = true
      · simp [hempty]
      · by_cases hslash : (dir.text.toList.getLast? == some '/') = true
        · simp [hempty, hslash, String.append_assoc]
        · simp [hempty, hslash, String.append_assoc]

/-! ### Paths as seen from a directory -/

/-- Names add pieces of their own, which all count. -/
theorem piecesOf_append (hnames : ∀ n ∈ names, IsName n) (absolute : Bool) (raw : List String) :
    ∃ pieces : List Piece, piecesOf absolute (raw ++ names) = piecesOf absolute raw ++ pieces ∧
      pieces.map Piece.text = names ∧ ∀ piece ∈ pieces, piece.counts = true := by
  have later : ∀ piece ∈ names.map fun s => Piece.mk s (s != "" && s != "."), piece.counts = true := by
    intro piece hpiece
    obtain ⟨n, hn, rfl⟩ := List.mem_map.mp hpiece
    exact (hnames n hn).counts
  cases raw with
  | cons s raw =>
    refine ⟨names.map fun s => Piece.mk s (s != "" && s != "."), ?_, ?_, later⟩
    · simp [piecesOf]
    · simp [Function.comp_def]
  | nil =>
    refine ⟨piecesOf absolute names, rfl, ?_, ?_⟩
    · cases names with
      | nil => rfl
      | cons name rest => cases absolute <;> simp [piecesOf, Function.comp_def]
    · cases names with
      | nil => simp [piecesOf]
      | cons name rest =>
        intro piece hpiece
        obtain rfl | hpiece := List.mem_cons.mp hpiece
        · cases absolute
          · simp [(hnames name (.head _)).nonempty]
          · exact (hnames name (.head _)).counts
        · exact later piece (.tail _ hpiece)

/-- Leaving out as many pieces as count leaves those that do not. -/
theorem dropCounting_append (before after : List Piece) :
    ∃ left : List Piece, (∀ piece ∈ left, piece.counts = false) ∧
      dropCounting (before.filter Piece.counts).length (before ++ after) = left ++ after := by
  induction before with
  | nil =>
    refine ⟨[], nofun, ?_⟩
    cases after <;> rfl
  | cons piece rest ih =>
    obtain ⟨left, hleft, hdrop⟩ := ih
    by_cases hcounts : piece.counts = true
    · refine ⟨left, hleft, ?_⟩
      rw [List.filter_cons_of_pos hcounts, List.length_cons, List.cons_append, dropCounting, if_pos hcounts,
        hdrop]
    · rw [List.filter_cons_of_neg hcounts]
      cases hlength : (rest.filter Piece.counts).length with
      | zero =>
        -- No piece counts, so that nothing is left out.
        have hnone := List.length_eq_zero_iff.mp hlength
        refine ⟨piece :: rest, fun p hp => ?_, by rw [dropCounting]⟩
        obtain rfl | hp := List.mem_cons.mp hp
        · exact Bool.eq_false_iff.mpr hcounts
        · exact Bool.eq_false_iff.mpr (List.filter_eq_nil_iff.mp hnone p hp)
      | succ n =>
        refine ⟨left, hleft, ?_⟩
        rw [List.cons_append, dropCounting, if_neg hcounts, ← hlength, hdrop]

/-- Nothing is cut off behind pieces that count. -/
theorem trimEnd_append (left : List Piece) {pieces : List Piece} (hne : pieces ≠ [])
    (hcount : ∀ piece ∈ pieces, piece.counts = true) : trimEnd (left ++ pieces) = left ++ pieces := by
  obtain ⟨last, before, hpieces⟩ : ∃ last before, pieces.reverse = last :: before :=
    List.exists_cons_of_ne_nil fun h => hne (List.reverse_eq_nil_iff.mp h)
  have hlast := hcount last (List.mem_reverse.mp (hpieces ▸ List.mem_cons_self))
  unfold trimEnd
  rw [List.reverse_append, hpieces, List.cons_append, List.dropWhile_cons_of_neg (by simp [hlast]),
    ← List.cons_append, ← hpieces, ← List.reverse_append, List.reverse_reverse]

/-- What does not count is cut off before pieces that do. -/
theorem trimStart_append {left pieces : List Piece} (hleft : ∀ piece ∈ left, piece.counts = false)
    (hcount : ∀ piece ∈ pieces, piece.counts = true) : trimStart (left ++ pieces) = pieces := by
  unfold trimStart
  rw [List.dropWhile_append_of_pos fun piece hpiece => by simp [hleft piece hpiece]]
  cases pieces with
  | nil => rfl
  | cons first rest => exact List.dropWhile_cons_of_neg (by simp [hcount first (.head _)])

/-- A path without components is empty. -/
theorem text_of_components (h : dir.components = []) : dir.text = "" := by
  rw [components_eq, List.append_eq_nil_iff] at h
  obtain ⟨habsolute, hbelow⟩ := h
  have habsolute : dir.isAbsolute = false := by
    cases hab : dir.isAbsolute with
    | false => rfl
    | true =>
      rw [hab] at habsolute
      cases habsolute
  cases hlist : dir.text.toList with
  | nil => exact String.toList_eq_nil_iff.mp hlist
  | cons c cs =>
    -- The first piece is not empty, and therefore counts.
    have hc : (c == '/') = false := by
      unfold isAbsolute at habsolute
      rw [hlist] at habsolute
      simpa using habsolute
    obtain ⟨piece, pieces, -, hsplit⟩ := Text.split_cons_of_not (· == '/') c cs hc
    have hraw : dir.rawPieces = String.ofList (c :: piece) :: pieces.map String.ofList := by
      unfold rawPieces
      rw [habsolute, hlist, hsplit]
      rfl
    rw [habsolute, hraw] at hbelow
    simp [below, piecesOf] at hbelow

/-- The path that names lead to from a directory, as seen from there. -/
theorem relativeTo?_descend (dir : Path) (hne : names ≠ []) (hnames : ∀ n ∈ names, IsName n) :
    (dir.descend names).relativeTo? dir = some (ofNames names) := by
  obtain ⟨pieces, hpieces, htext, hcount⟩ := piecesOf_append hnames dir.isAbsolute dir.above
  have hpiecesNe : pieces ≠ [] := by
    rintro rfl
    exact hne htext.symm
  have hstarts : (dir.descend names).startsWith dir = true := by
    rw [startsWith, components_descend dir hnames, List.isPrefixOf_iff_prefix]
    exact List.prefix_append _ _
  have hall : (dir.descend names).pieces = piecesOf dir.isAbsolute dir.above ++ pieces := by
    rw [pieces_eq, rawPieces_descend dir hne hnames, isAbsolute_descend dir hnames, hpieces]
  unfold relativeTo?
  rw [hstarts, hall, isAbsolute_descend dir hnames]
  dsimp only
  rw [if_neg nofun]
  by_cases hzero : dir.components.length = 0
  · have hdir : dir = ⟨""⟩ := congrArg Path.mk (text_of_components (List.length_eq_zero_iff.mp hzero))
    subst hdir
    rw [if_pos hzero]
    have hnone : piecesOf (⟨""⟩ : Path).isAbsolute (above ⟨""⟩) = [] := rfl
    rw [hnone, trimEnd_append [] hpiecesNe hcount]
    simp only [textOf, List.nil_append, htext]
    rfl
  · rw [if_neg hzero]
    have hlength : (if dir.isAbsolute then dir.components.length - 1 else dir.components.length)
        = ((piecesOf dir.isAbsolute dir.above).filter Piece.counts).length := by
      have habove := congrArg List.length (below_above dir)
      rw [below, List.length_map] at habove
      rw [habove, components_eq]
      cases dir.isAbsolute <;> simp
    rw [hlength]
    obtain ⟨left, hleft, hdrop⟩ := dropCounting_append (piecesOf dir.isAbsolute dir.above) pieces
    rw [hdrop, trimEnd_append left hpiecesNe hcount, trimStart_append hleft hcount, textOf, htext]
    rfl

end

end SourceTables.Path
