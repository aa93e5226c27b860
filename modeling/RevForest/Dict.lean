/-!
Finite maps kept as their entries in strictly increasing key order. Equal maps are then equal
lists, and walking the entries walks the keys in order.
-/
namespace RevForest

structure Dict (κ ν : Type) where
  entries : List (κ × ν)
  deriving DecidableEq, Repr

namespace Dict
variable {κ ν : Type}

def Sorted [LT κ] (d : Dict κ ν) : Prop := d.entries.Pairwise (·.1 < ·.1)

def empty : Dict κ ν := ⟨[]⟩

instance : Inhabited (Dict κ ν) := ⟨empty⟩

def size (d : Dict κ ν) : Nat := d.entries.length

def isEmpty (d : Dict κ ν) : Bool := d.entries.isEmpty

def keys (d : Dict κ ν) : List κ := d.entries.map (·.1)

def values (d : Dict κ ν) : List ν := d.entries.map (·.2)

def insertEntry [LT κ] [DecidableLT κ] [DecidableEq κ] (k : κ) (v : ν) :
    List (κ × ν) → List (κ × ν)
  | [] => [(k, v)]
  | (l, w) :: rest =>
    if k < l then (k, v) :: (l, w) :: rest
    else if k = l then (k, v) :: rest
    else (l, w) :: insertEntry k v rest

def insert [LT κ] [DecidableLT κ] [DecidableEq κ] (d : Dict κ ν) (k : κ) (v : ν) : Dict κ ν :=
  ⟨insertEntry k v d.entries⟩

def ofList [LT κ] [DecidableLT κ] [DecidableEq κ] (entries : List (κ × ν)) : Dict κ ν :=
  entries.foldl (fun d e => d.insert e.1 e.2) empty

def find? [DecidableEq κ] (d : Dict κ ν) (k : κ) : Option ν :=
  (d.entries.find? fun e => e.1 = k).map (·.2)

def contains [DecidableEq κ] (d : Dict κ ν) (k : κ) : Bool := (d.find? k).isSome

def erase [DecidableEq κ] (d : Dict κ ν) (k : κ) : Dict κ ν :=
  ⟨d.entries.filter fun e => ¬ e.1 = k⟩

def filter (keep : κ → ν → Bool) (d : Dict κ ν) : Dict κ ν :=
  ⟨d.entries.filter fun e => keep e.1 e.2⟩

def adjust [DecidableEq κ] (d : Dict κ ν) (k : κ) (change : ν → ν) : Dict κ ν :=
  ⟨d.entries.map fun e => if e.1 = k then (e.1, change e.2) else e⟩

end Dict
end RevForest
