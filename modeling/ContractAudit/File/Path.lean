import ContractAudit.Text.Basic

/-!
Slash-separated paths, taken as texts: nothing here looks at files.

A path is cut into parts at its slashes. `components` drops the parts that change nothing and lets
`..` cancel the part before it; `clean` writes the components back. A path `isLocal` when it stays
below the place it starts from.
-/

namespace ContractAudit.Path

/-- The byte between the parts of a path. -/
def slash : UInt8 := 47

/-- The part that stands for the place itself. -/
def self : Text := "."

/-- The part that stands for the place above. -/
def up : Text := ".."

/-- Whether a path starts at the root. -/
def isRooted (t : Text) : Bool := t.startsWith "/"

/-- The parts between slashes, empty ones included. -/
def parts (t : Text) : List Text := t.splitOn "/"

/-- The components so far, last one first, with one more part. At the root there is nothing above; a
path that is not rooted keeps the `..` that lead out of it. -/
def step (rooted : Bool) (done : List Text) (part : Text) : List Text :=
  if part.isEmpty || part == self then done
  else if part == up then
    match done with
    | [] => if rooted then [] else [up]
    | last :: before => if last == up then up :: last :: before else before
  else part :: done

/-- The components that parts come to. -/
def reduce (rooted : Bool) (ps : List Text) : List Text := (ps.foldl (step rooted) []).reverse

/-- The components of a path. -/
def components (t : Text) : List Text := reduce (isRooted t) (parts t)

/-- The shortest path with the same components. -/
def clean (t : Text) : Text :=
  let way := Text.joinWith "/" (components t)
  if isRooted t then "/" ++ way else if way.isEmpty then self else way

/-- One path behind another, cleaned. Empty ones do not count. -/
def join (ts : List Text) : Text :=
  match ts.filter (!·.isEmpty) with
  | [] => []
  | ts => clean (Text.joinWith "/" ts)

/-- The path of what holds the last part of a path. -/
def parent (t : Text) : Text := clean (t.reverse.dropWhile (· != slash)).reverse

/-- The last part of a path from its last dot on, or nothing when it has no dot. -/
def extension (t : Text) : Text :=
  let name := t.reverse.takeWhile (· != slash)
  if name.all (· != 46) then [] else 46 :: (name.takeWhile (· != 46)).reverse

/-- Whether a path is neither empty nor rooted nor leads out of the place it starts from. -/
def isLocal (t : Text) : Bool := !t.isEmpty && !isRooted t && (components t).head? != some up

end ContractAudit.Path
