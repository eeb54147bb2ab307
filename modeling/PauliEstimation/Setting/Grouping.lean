import PauliEstimation.Setting

namespace PauliEstimation

variable {R : Type} [One R]

/-- Groups stay in the order of their first members. -/
def SettingGroup.place (s : Setting R) : List (SettingGroup R) → List (SettingGroup R)
  | [] => [⟨s.unscaled, [s]⟩]
  | g :: rest => match g.max.mergedWith? s with
    | some merged => ⟨merged, g.settings ++ [s]⟩ :: rest
    | none => g :: place s rest

def SettingGroup.greedy (settings : List (Setting R)) : List (SettingGroup R) :=
  settings.foldl (fun groups s => place s groups) []

end PauliEstimation
