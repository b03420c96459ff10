import LinearProgram.Text.Solution
import LinearProgram.Journal.Search
import LinearProgram.Tableau.OfLists
import LinearProgram.Proofs.Exact
import LinearProgram.Proofs.Tableau.Entries
import LinearProgram.Proofs.Tableau.Equations
import LinearProgram.Proofs.Tableau.Representation
import LinearProgram.Proofs.Tableau.Pricing
import LinearProgram.Proofs.Tableau.Course
import LinearProgram.Proofs.Expression
import LinearProgram.Proofs.CanonicalForm
import LinearProgram.Proofs.Integrity
import LinearProgram.Proofs.Normalization
import LinearProgram.Proofs.FreshName
import LinearProgram.Proofs.RowVariables
import LinearProgram.Proofs.StandardForm
import LinearProgram.Proofs.Faithful
import LinearProgram.Proofs.Folding
import LinearProgram.Proofs.TightestBounds
import LinearProgram.Proofs.FirstTableau
import LinearProgram.Proofs.Solving
import LinearProgram.Proofs.IterationLimit
import LinearProgram.Proofs.Certificate
import LinearProgram.Proofs.Tableau.Steps
import LinearProgram.Proofs.Tableau.RatioTest
import LinearProgram.Proofs.Tableau.Ties
import LinearProgram.Proofs.Tableau.Drift
import LinearProgram.Proofs.Tableau.ClearRun
import LinearProgram.Proofs.Tableau.Progress
import LinearProgram.Proofs.Tableau.Stalling
import LinearProgram.Proofs.Tableau.Bland
import LinearProgram.Proofs.Feasibility
import LinearProgram.Proofs.Overshoot
import LinearProgram.Proofs.Search.Branches
import LinearProgram.Proofs.Search.Visits
import LinearProgram.Proofs.Search.Boxes
import LinearProgram.Proofs.Search.Coverage
import LinearProgram.Proofs.Acceptance
import LinearProgram.Proofs.LegalStart
import LinearProgram.Proofs.PhaseTransition
import LinearProgram.Proofs.Outcomes
import LinearProgram.Proofs.Infeasibility
import LinearProgram.Proofs.Unboundedness
import LinearProgram.Proofs.Sensitivity
import LinearProgram.Proofs.Search.Termination
import LinearProgram.Proofs.Search.Incumbents
import LinearProgram.Proofs.Restatement
import LinearProgram.Proofs.Simplification
import LinearProgram.Proofs.Direction
import LinearProgram.Proofs.Pinning
import LinearProgram.Proofs.Operations
import LinearProgram.Proofs.Ownership
import LinearProgram.Proofs.Satisfaction
import LinearProgram.Proofs.Assembly
import LinearProgram.Proofs.Budget
import LinearProgram.Proofs.ObjectiveValues
import LinearProgram.Proofs.Journal
