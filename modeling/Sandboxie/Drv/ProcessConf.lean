import Sandboxie.Common.ImageValue

/-!
# Settings for an image, in the driver

`core/drv/process_util.c`.  The values of a setting are what `Conf_Get` gives for the box at
the indices 0, 1, 2, …
-/

namespace Sandboxie.ProcessConf

open Image

/-- What the functions use of a `BOX`: `Conf_Expand` with its arguments, and the values of
`ProcessGroup`.  `hexMatch` is `Pattern_Match` in the driver, for a pattern with a hex part. -/
structure Box where
  towlower : WChar → WChar
  expand : List WChar → Option (List WChar)
  groups : List (List WChar)
  hexMatch : Pattern → List WChar → Bool

/-- The driver expands every pattern. -/
def Box.side (box : Box) : Side := ⟨box.towlower, box.expand, box.hexMatch⟩

def processMatchImageGroup (box : Box) (testStr : List WChar) : Nat → List WChar → Bool :=
  matchImageGroup box.side box.groups testStr

def processMatchImage (box : Box) (patStr testStr : List WChar) : Bool :=
  matchImage box.side box.groups patStr testStr

def processMatchImageAndGetValue (box : Box) (imageName value : List WChar) (level : Nat) :
    Option (List WChar) × Nat :=
  matchImageAndGetValue (fun patStr => processMatchImage box patStr imageName) 3 value level

/-- `Process_GetConfEx`, with the values of the setting. -/
def processGetConfEx (box : Box) (imageName : List WChar) (values : List (List WChar)) :
    Option (List WChar) :=
  (selectLoop (processMatchImageAndGetValue box imageName) values).1

end Sandboxie.ProcessConf
