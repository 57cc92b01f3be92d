import Cocolog.Engine.Model

/-! What a goal means, without a continuation or a choice frame: the search it makes, a search
for each construct from the searches of its parts. `solve` goes `n` calls deep. -/

set_option linter.all false

namespace Cocolog.Engine

open Cocolog.Lib

variable {σ M ω T B C : Type}

namespace Memory

variable (mem : Memory σ M ω T B C)

/-- The clauses of a call in turn, each the search of its body. -/
def choose (f : σ → ω → T → Search σ ω B) (s : σ) (g : T) : List C → ω → Search σ ω B
  | [], w => .fail w
  | clause :: left, w =>
    (match mem.tryClause s g clause with
      | some (s', body) => Search.all f body s' w
      | none => .fail w).orElse (choose f s g left)

def guarded (s : σ) (w : ω) (g : T) (x : Search σ ω B) : Search σ ω B :=
  match mem.unfit s g with
  | some ball => .throw w ball
  | none => x

def solve : Nat → σ → ω → T → Search σ ω B
  | 0, _, _, _ => .lost
  | n + 1, s, w, g =>
    let yes := fun s w => .answer s w .fail
    match mem.view s g with
    | .true_ => yes s w
    | .fail => .fail w
    | .cut => .cut (yes s w)
    | .conj _ _ => Search.all (solve n) (mem.spine s 63 g) s w
    | .disj l r =>
      match mem.view s l with
      | .ifThen c t => (solve n s w c).ite (fun s w => solve n s w t) (fun w => solve n s w r)
      | .softThen c t => (solve n s w c).soft (fun s w => solve n s w t) (fun w => solve n s w r)
      | _ => (solve n s w l).orElse (fun w => solve n s w r)
    | .ifThen c t => (solve n s w c).ite (fun s w => solve n s w t) .fail
    | .softThen c t => (solve n s w c).soft (fun s w => solve n s w t) .fail
    | .naf c => (solve n s w c).ite (fun _ w => .fail w) (yes s)
    | .not_ c => mem.guarded s w c ((solve n s w c).ite (fun _ w => .fail w) (yes s))
    | .once c => mem.guarded s w c ((solve n s w c).ite yes .fail)
    | .ignore c => mem.guarded s w c ((solve n s w c).ite yes (yes s))
    | .call c => mem.guarded s w c (solve n s w c).closed
    | .catch_ c catcher recovery =>
      (mem.guarded s w c (solve n s w c)).catching
        (fun w ball => (mem.catches s catcher ball).map (fun s => solve n s w recovery))
    | .throw_ ball => .throw w (mem.thrown s ball)
    | .other =>
      match mem.called s w g with
      | .exits s w => yes s w
      | .fails w => .fail w
      | .raises w ball => .throw w ball
      | .calls s w g => (solve n s w g).closed
      | .clauses w candidates => (mem.choose (solve n) s g candidates w).closed

end Memory

end Cocolog.Engine
