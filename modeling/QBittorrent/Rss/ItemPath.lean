import QBittorrent.Lib.PathText

/-!
# Paths of feeds and folders

An item of the tree of feeds is known by its path, the names from the root on with separators
between them.  The root folder has the empty path.
-/

namespace QBittorrent.Rss.ItemPath

open PathText

def pathSeparator : Char := '\\'

def joinPath (path1 path2 : List Char) : List Char :=
  if path1 = [] then path2 else path1 ++ pathSeparator :: path2

def relativeName (path : List Char) : List Char := afterLast pathSeparator path

variable {path name : List Char}

theorem not_mem_relativeName (path : List Char) : pathSeparator ∉ relativeName path :=
  notMem_afterLast path

theorem relativeName_joinPath (path : List Char) (h : pathSeparator ∉ name) :
    relativeName (joinPath path name) = name := by
  rw [relativeName, joinPath]
  split_ifs
  · exact afterLast_of_notMem h
  · exact afterLast_append h

end QBittorrent.Rss.ItemPath
