import PolicyDialects.Proofs.Filter.Canonical
import PolicyDialects.Proofs.Names.Building

/-!
# Renamed attributes

A condition with its attributes under other names.

Results:

* `holds_mapPaths`, `each_mapPaths`: a renamed condition is true when the
  condition is, of the renamed comparisons.
* `mapPaths_eq_self`: names that are renamed and then renamed back.
-/

namespace PolicyDialects

namespace Filter

/-- The comparison with its attribute under another name. -/
def Comparison.mapPath (f : String → String) (c : Comparison) : Comparison :=
  { c with path := f c.path }

theorem Comparison.path_mapPath (f : String → String) (c : Comparison) :
    (c.mapPath f).path = f c.path := rfl

/-- A name that is renamed and then renamed back. -/
theorem Comparison.mapPath_mapPath {f g : String → String} {c : Comparison}
    (h : g (f c.path) = c.path) : (c.mapPath f).mapPath g = c := by
  unfold mapPath
  dsimp only
  rw [h]

namespace Expression

variable {f g : String → String}

/-- The expression with its attributes under other names. -/
def mapPaths (f : String → String) : Expression → Expression
  | .compare c => .compare (c.mapPath f)
  | .logical op left right => .logical op (left.mapPaths f) (right.mapPaths f)
  | .not inner => .not (inner.mapPaths f)
  | .group inner => .group (inner.mapPaths f)
  | .valuePath path filter => .valuePath (f path) (filter.mapPaths f)

/-- The truth of the comparisons before they are renamed. -/
def truthBefore (f : String → String) (truth : List String → Comparison → Bool) :
    List String → Comparison → Bool :=
  fun paths c => truth (paths.map f) (c.mapPath f)

theorem holds_mapPaths (truth : List String → Comparison → Bool) (e : Expression) :
    (e.mapPaths f).holds truth = e.holds (truthBefore f truth) := by
  induction e generalizing truth with
  | compare c => rfl
  | logical op left right ihl ihr => cases op <;> simp only [mapPaths, holds, ihl, ihr]
  | not inner ih => simp only [mapPaths, holds, ih]
  | group inner ih => simp only [mapPaths, holds, ih]
  | valuePath path filter ih => simp only [mapPaths, holds, ih]; rfl

theorem depth_mapPaths (e : Expression) : (e.mapPaths f).depth = e.depth := by
  induction e with
  | compare c => rfl
  | logical op left right ihl ihr => simp only [mapPaths, depth, ihl, ihr]
  | not inner ih => simp only [mapPaths, depth, ih]
  | group inner ih => simp only [mapPaths, depth, ih]
  | valuePath path filter ih => simp only [mapPaths, depth, ih]

theorem comparisons_mapPaths (e : Expression) :
    (e.mapPaths f).comparisons = e.comparisons.map (Comparison.mapPath f) := by
  induction e with
  | compare c => rfl
  | logical op left right ihl ihr => simp only [mapPaths, comparisons, ihl, ihr, List.map_append]
  | not inner ih => exact ih
  | group inner ih => exact ih
  | valuePath path filter ih => exact ih

theorem each_mapPaths {path : String → Prop} {comparison : Comparison → Prop} (e : Expression) :
    (e.mapPaths f).Each path comparison ↔
      e.Each (fun p => path (f p)) fun c => comparison (c.mapPath f) := by
  induction e with
  | compare c => rfl
  | logical op left right ihl ihr => exact and_congr ihl ihr
  | not inner ih => exact ih
  | group inner ih => exact ih
  | valuePath path filter ih => exact and_congr Iff.rfl ih

theorem orsApart_mapPaths {e : Expression} : (e.mapPaths f).OrsApart ↔ e.OrsApart := by
  have hisOr : ∀ e : Expression, (e.mapPaths f).isOr = e.isOr := by
    intro e
    cases e with
    | logical op left right => cases op <;> rfl
    | _ => rfl
  induction e with
  | compare c => rfl
  | logical op left right ihl ihr => simp only [mapPaths, OrsApart, hisOr, ihl, ihr]
  | not inner ih => exact ih
  | group inner ih => exact ih
  | valuePath path filter ih => exact ih

theorem mapPaths_mapPaths (e : Expression) :
    (e.mapPaths f).mapPaths g = e.mapPaths fun path => g (f path) := by
  induction e with
  | compare c => rfl
  | logical op left right ihl ihr => simp only [mapPaths, ihl, ihr]
  | not inner ih => simp only [mapPaths, ih]
  | group inner ih => simp only [mapPaths, ih]
  | valuePath path filter ih => simp only [mapPaths, ih]

theorem mapPaths_eq_self {e : Expression}
    (h : e.Each (fun path => f path = path) fun c => f c.path = c.path) : e.mapPaths f = e := by
  induction e with
  | compare c => rw [mapPaths, Comparison.mapPath, h]
  | logical op left right ihl ihr => rw [mapPaths, ihl h.1, ihr h.2]
  | not inner ih => rw [mapPaths, ih h]
  | group inner ih => rw [mapPaths, ih h]
  | valuePath path filter ih => rw [mapPaths, h.1, ih h.2]

theorem each_of_forall {path : String → Prop} {comparison : Comparison → Prop}
    (hpath : ∀ p, path p) (hcomparison : ∀ c, comparison c) (e : Expression) :
    e.Each path comparison := by
  induction e with
  | compare c => exact hcomparison c
  | logical op left right ihl ihr => exact ⟨ihl, ihr⟩
  | not inner ih => exact ih
  | group inner ih => exact ih
  | valuePath path filter ih => exact ⟨hpath path, ih⟩

end Expression

end Filter

end PolicyDialects
