import CLanguage.Gradebook.Numbers

/-!
# The course that a database describes

A course as a tree: its sections with their students and scores. A policy carries
its parameters and a grade what its flag and its substitution leave in use, so that
no field is without a value.
-/

namespace CLanguage.Gradebook

open Lib Grades

/-- `Npolicy` with the parameters of the policy. -/
inductive Npolicy
  | raw
  | linear (mean stddev : Binary32)
  | quantile
  | scale (scale : Binary32)
  deriving DecidableEq

/-- `Ngroup` -/
inductive Ngroup
  | byClass
  | bySection
  deriving DecidableEq

/-- `Assignment` -/
structure Assignment where
  name : Str
  atype : Str
  /-- `weight`, where `wpolicy` is `WEIGHT` -/
  weight : Option Binary32
  max : Binary32
  npolicy : Npolicy
  ngroup : Ngroup
  deriving DecidableEq

/-- The flag of a score with what goes with it: the grade, or the substitution for an invalid score
with its code. `USENORM` sets three fields to one number. -/
inductive Grade
  | valid (grade : Binary32)
  | useRaw (grade : Binary32) (code : Str)
  | useNorm (norm : Binary32) (code : Str)
  | useLikeAvg (code : Str)
  | useClassAvg (code : Str)
  deriving DecidableEq

/-- `Score`. The assignment is given by its place in the list of assignments. -/
structure Score where
  asgt : ℕ
  grade : Grade
  deriving DecidableEq

/-- `Student` -/
structure Student where
  id : Str
  surname : Str
  name : Str
  rawscores : List Score
  deriving DecidableEq

/-- `Professor` and `Assistant` -/
structure Person where
  surname : Str
  name : Str
  deriving DecidableEq

/-- `Section` -/
structure Section where
  name : Str
  assistant : Option Person
  roster : List Student
  deriving DecidableEq

/-- `Course` -/
structure Course where
  number : Str
  title : Str
  professor : Option Person
  assignments : List Assignment
  sections : List Section
  deriving DecidableEq

end CLanguage.Gradebook
