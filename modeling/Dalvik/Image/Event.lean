import Dalvik.Image.File

/-!
# Events

What reading an image or an archive reports, in the order it is come across: an archive before its
images, an image before its classes, a class before its methods.
-/

namespace Dalvik

inductive Event where
  | archive (name : Bytes)
  | image (name signature : Bytes)
  | classSeen (type : Descriptor) (methods : Nat)
  | methodSeen (name : Bytes) (index codeOffset : Int)
  /-- A class with all that belongs to it, and the constants it refers to. -/
  | defined (c : ClassDef) (pool : Pool)
  /-- A remark for those who asked for at least this much detail. -/
  | remark (level : Nat) (text : Bytes)
  deriving Inhabited

namespace Event

/-- The line of a listing; only archives, images, classes and methods have one. -/
def line? : Event → Option Bytes
  | .archive name => some (ascii "APK " ++ name)
  | .image name signature => some (ascii " DEX " ++ name ++ ascii " sha1 " ++ hexBytes signature)
  | .classSeen type methods =>
    some (ascii "  class " ++ type.sourceName ++ ascii " methods: " ++ decimal methods)
  | .methodSeen name index codeOffset =>
    some (ascii "   method id " ++ decimal index ++ ascii " name '" ++ name ++
      ascii "' code offset " ++ decimal codeOffset)
  | _ => none

def remark? : Event → Option (Nat × Bytes)
  | .remark level text => some (level, text)
  | _ => none

def defined? : Event → Option ClassDef
  | .defined c _ => some c
  | _ => none

end Event

/-- The listing of some events, a line for each that has one. -/
def listing (events : List Event) : Bytes :=
  (events.filterMap Event.line?).flatMap (· ++ [byte '\n'])

/-- The remarks for a wanted amount of detail. -/
def remarksUpTo (detail : Int) (events : List Event) : List (Nat × Bytes) :=
  (events.filterMap Event.remark?).filter fun r => r.1 ≤ detail

end Dalvik
