import Foxing.Hydrator

/-!
# Exclusions and hydration

Live events for excluded paths are dropped. The scans, the watcher, the repairs and
the jobs do not ask whether a path is excluded: they keep to the exclusions exactly
if nothing that is excluded is put before them, and nothing of a target itself.
-/
namespace Foxing.Hydration
variable {τ : Type*} (site : Site τ)

section Conditions
variable (d : Storage) (s : Hydration τ)

/-- No missing directory on the way to this one is to be left out, and neither is the directory
itself if it is brought up to date. -/
def DirAllowed (t : τ) (rel : Path) (touched : Bool) : Prop :=
  (¬ d.Exists (site.targetPath t rel) → ∀ q, q <+: rel → ¬ d.Exists (site.targetPath t q) →
    ¬ site.OffLimits t q) ∧ (touched = true → ¬ site.OffLimits t rel)

/-- Nor is a directory that is walked, or a file that gets a new signature. -/
def ScanAllowed (x : ScanEnv τ) : Prop :=
  (∀ rel ∈ s.walkedDirs site, ∀ t ∈ site.targets,
    DirAllowed site s.disk t rel (dirTouched x t rel)) ∧
  ∀ rel ∈ s.walkedFiles site x, ∀ t ∈ site.targets, signs x t rel = true → ¬ site.OffLimits t rel

/-- Nor is a path that is noticed. -/
def PathAllowed (x : ScanEnv τ) (forced : Bool) (path : Path) : Prop :=
  internalName (path.getLast?.getD "") = false → ∀ rel, site.relOf path = some rel →
    ∀ e, s.disk.lookup path = some e →
      (e.kind = .dir → ∀ t ∈ site.targets, DirAllowed site s.disk t rel (!x.synced t rel)) ∧
      (e.kind = .file → ∀ t ∈ signedTargets site x forced rel, ¬ site.OffLimits t rel)

/-- Nor is what a job copies. -/
def CopyAllowed (t : τ) (rel : Path) : Prop :=
  ∀ e, s.disk.lookup (site.mount ++ rel) = some e →
    (e.kind = .dir → DirAllowed site s.disk t rel false) ∧
    (e.kind = .file → DirAllowed site s.disk t rel.dropLast false ∧ ¬ site.OffLimits t rel)

def Safe : Action τ → Prop
  | .fullScan x => ScanAllowed site s x
  | .targetedRescan t journal _ => ∀ p ∈ journal, p.dropLast ≠ [] →
      DirAllowed site s.disk t p.dropLast false
  | .recoveryScan t journal x => ∀ p ∈ journal, ¬ s.Consistent site t x p.dropLast →
      DirAllowed site s.disk t p.dropLast (s.disk.Exists (site.sourcePath ++ p.dropLast))
  | .fallbackScan x => ScanAllowed site s x ∧
      ∀ w ∈ s.clearedDirs site x, ¬ site.OffLimits w.1 w.2
  | .processPathStatic path x => PathAllowed site s x true path
  | .processPath urgent path x => PathAllowed site s x urgent path
  | .runJob i run => ∀ t path, s.jobs[i]? = some (t, path) → run.skipped = false →
      s.disk.Exists (site.mount ++ path) → CopyAllowed site s t (run.resolved.getD path)
  | _ => True

end Conditions

/-! ## What a step adds -/

section Steps
variable {site} {s s' : Hydration τ}

end Steps

/-! ## Runs -/

end Foxing.Hydration
