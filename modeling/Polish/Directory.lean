import Polish.Source

/-!
A directory of files, given by their paths and contents.

A path is followed name by name.  A directory inside is one that some file has
on its path.  Outside there are no files, only the directories above this one,
up to the root, which is its own parent.

The command line program takes the contents of its sources as a function, and a
directory is one way to give that function.  It stands for the file system, and
no other module uses it.
-/

namespace Polish

structure Directory where
  files : List (List String × ByteArray)

namespace Directory

def names (path : String) : List String :=
  (path.toList.splitOnP (· == '/')).map String.ofList

/-- Whether a name leads nowhere deeper. -/
def isIdle (name : String) : Bool :=
  name == "" || name == "."

def ofList (files : List (String × ByteArray)) : Directory where
  files := files.map fun (path, contents) => ((names path).filter (!isIdle ·), contents)

def file? (directory : Directory) (place : List String) : Option ByteArray :=
  (directory.files.find? fun entry => entry.1 == place).map (·.2)

/-- Whether a place is on the way to some file. -/
def contains (directory : Directory) (place : List String) : Bool :=
  directory.files.any fun entry => place.isPrefixOf entry.1 && place != entry.1

/-- Where names lead from a place outside. -/
def beyond (names : List String) : ReadFault :=
  if names.all fun name => isIdle name || name == ".." then .isADirectory else .notFound

def follow (directory : Directory) (place : List String) :
    List String → Except ReadFault ByteArray
  | [] => .error .isADirectory
  | name :: names =>
      if isIdle name then
        directory.follow place names
      else if name = ".." then
        if place.isEmpty then
          .error (beyond names)
        else
          directory.follow place.dropLast names
      else
        let next := place ++ [name]
        match directory.file? next with
        | some contents => if names.isEmpty then .ok contents else .error .notADirectory
        | none =>
            if directory.contains next then
              directory.follow next names
            else
              .error .notFound

def read (directory : Directory) (path : String) : Except ReadFault ByteArray :=
  if path = "" then
    .error .notFound
  else if path.toList.head? = some '/' then
    .error (beyond (names path))
  else
    directory.follow [] (names path)

def contents (directory : Directory) (input : ByteArray) : Source → Except ReadFault ByteArray
  | .standardInput => .ok input
  | .file path => directory.read path

end Directory

end Polish
