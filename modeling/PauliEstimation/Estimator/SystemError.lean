namespace PauliEstimation.Estimator

structure SystemError where
  number : Nat
deriving DecidableEq, Repr

namespace SystemError

def notFound : SystemError := ⟨2⟩

def notDirectory : SystemError := ⟨20⟩

def isDirectory : SystemError := ⟨21⟩

def noSpace : SystemError := ⟨28⟩

def nameTooLong : SystemError := ⟨36⟩

/-- The errors that opening or writing a file can meet. -/
def descriptions : List (Nat × String) :=
  [(1, "Operation not permitted"),
   (2, "No such file or directory"),
   (4, "Interrupted system call"),
   (5, "Input/output error"),
   (6, "No such device or address"),
   (9, "Bad file descriptor"),
   (12, "Cannot allocate memory"),
   (13, "Permission denied"),
   (16, "Device or resource busy"),
   (17, "File exists"),
   (19, "No such device"),
   (20, "Not a directory"),
   (21, "Is a directory"),
   (22, "Invalid argument"),
   (23, "Too many open files in system"),
   (24, "Too many open files"),
   (26, "Text file busy"),
   (27, "File too large"),
   (28, "No space left on device"),
   (30, "Read-only file system"),
   (32, "Broken pipe"),
   (36, "File name too long"),
   (40, "Too many levels of symbolic links"),
   (122, "Disk quota exceeded")]

def description (e : SystemError) : String :=
  (descriptions.lookup e.number).getD ("Unknown error " ++ toString e.number)

def text (e : SystemError) : String :=
  e.description ++ " (os error " ++ toString e.number ++ ")"

end SystemError

end PauliEstimation.Estimator
