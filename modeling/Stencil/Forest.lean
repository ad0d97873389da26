/-!
# Forests

The files below a directory, sorted into its subdirectories.
-/

namespace Stencil

inductive Forest where
  | nil
  | file (name : String) (rest : Forest)
  | directory (name : String) (inside rest : Forest)
  deriving Repr

namespace Forest

def path : (way : List String) → Forest
  | [] => nil
  | [name] => file name nil
  | name :: way => directory name (path way) nil

def insert (way : List String) : Forest → Forest
  | nil => path way
  | file name rest => file name (rest.insert way)
  | directory name inside rest =>
    match way with
    | first :: second :: way =>
      if first = name then directory name (inside.insert (second :: way)) rest
      else directory name inside (rest.insert (first :: second :: way))
    | way => directory name inside (rest.insert way)

def ofWays (ways : List (List String)) : Forest := ways.foldl (fun f way => f.insert way) nil

end Forest

end Stencil
