import LPRounding.Scalar
import LPRounding.Text.Blank
import LPRounding.Text.Capital
import LPRounding.Decimal.Places
import LPRounding.Random.Seed
import LPRounding.Random.Twister
import LPRounding.Tolerance
import LPRounding.LP.Model
import LPRounding.LP.Solver
import LPRounding.LP.Script
import LPRounding.Settings
import LPRounding.Random.Dice
import LPRounding.Run.Engine
import LPRounding.Separation.Oracle
import LPRounding.Log.Record
import LPRounding.Flow.Augment
import LPRounding.Graph.Forest
import LPRounding.Graph.Metric
import LPRounding.Problem.Explicit
import LPRounding.Problem.Countdown
import LPRounding.Problem.Assignment
import LPRounding.Problem.SteinerNetwork
import LPRounding.Problem.TreeAugmentation
import LPRounding.Problem.BoundedTree
import LPRounding.Problem.SteinerTree
import LPRounding.Multiway.Division
import LPRounding.Proofs.Exact
import LPRounding.Proofs.Returns
import LPRounding.Proofs.LP.Points
import LPRounding.Proofs.Run.Invariant
import LPRounding.Proofs.Assignment.Invariant
import LPRounding.Proofs.Run.Rules
import LPRounding.Proofs.Assignment.Answer
import LPRounding.Proofs.Graph.Edges
import LPRounding.Proofs.Run.Ledger
import LPRounding.Proofs.Run.Separation
import LPRounding.Proofs.Graph.Reach
import LPRounding.Proofs.Graph.Route
import LPRounding.Proofs.Graph.Bypass
import LPRounding.Proofs.TreeAugmentation.Tree
import LPRounding.Proofs.TreeAugmentation.Answer
import LPRounding.Proofs.Flow.Network
import LPRounding.Proofs.Flow.Cut
import LPRounding.Proofs.Graph.Forest
import LPRounding.Proofs.Flow.Edges
import LPRounding.Proofs.SteinerNetwork.Answer
import LPRounding.Proofs.BoundedTree.Auxiliary
import LPRounding.Proofs.BoundedTree.Invariant
import LPRounding.Proofs.BoundedTree.Answer
import LPRounding.Proofs.Flow.Integral
import LPRounding.Proofs.LP.Polyhedron
import LPRounding.Proofs.LP.Vertex
import LPRounding.Proofs.LP.Honest
import LPRounding.Proofs.Ends
import LPRounding.Proofs.Run.Progress
import LPRounding.Proofs.Run.Dependent
import LPRounding.Proofs.Assignment.Progress
import LPRounding.Proofs.Graph.Laminar
import LPRounding.Proofs.Graph.Sides
import LPRounding.Proofs.TreeAugmentation.Progress
import LPRounding.Proofs.Flow.Maximum
import LPRounding.Proofs.SteinerNetwork.Feasible
import LPRounding.Proofs.Graph.Distance
import LPRounding.Proofs.Graph.Contraction
import LPRounding.Proofs.SteinerTree.Component
import LPRounding.Proofs.SteinerTree.Invariant
import LPRounding.Proofs.SteinerTree.Answer
import LPRounding.Proofs.Run.Stages
import LPRounding.Proofs.Run.Handover
import LPRounding.Proofs.Run.Aloof
import LPRounding.Proofs.Run.Commitment
import LPRounding.Proofs.LP.Prices
import LPRounding.Proofs.Run.Refinement
import LPRounding.Proofs.SteinerTree.Network
import LPRounding.Proofs.Run.Families
import LPRounding.Proofs.Run.Rounds
import LPRounding.Proofs.Run.Generation
import LPRounding.Proofs.SteinerTree.Progress
import LPRounding.Proofs.Flow.Slack
import LPRounding.Proofs.SteinerNetwork.Shortfall
import LPRounding.Proofs.SteinerTree.Shortfall
import LPRounding.Proofs.Run.Fresh
import LPRounding.Proofs.Run.Strict
import LPRounding.Proofs.Fails
import LPRounding.Proofs.Run.Restrained
import LPRounding.Proofs.Run.Course
import LPRounding.Proofs.Run.Order
import LPRounding.Proofs.Run.Halting
import LPRounding.Proofs.Run.Billing
import LPRounding.Proofs.Run.Improvement
import LPRounding.Proofs.Assignment.Optimum
import LPRounding.Proofs.Run.Provenance
import LPRounding.Proofs.LP.Selection
import LPRounding.Proofs.Run.Budget
import LPRounding.Proofs.TreeAugmentation.Cost
import LPRounding.Proofs.SteinerNetwork.Cost
import LPRounding.Proofs.BoundedTree.Cost
import LPRounding.Proofs.Graph.Uncrossing
import LPRounding.Proofs.Graph.Crossing
import LPRounding.Proofs.Run.Stuck
import LPRounding.Proofs.BoundedTree.Progress
import LPRounding.Proofs.Run.Novel
import LPRounding.Proofs.BoundedTree.Halting
import LPRounding.Proofs.Multiway.Terminals
import LPRounding.Proofs.TreeAugmentation.Feasible
import LPRounding.Proofs.SteinerNetwork.Progress
import LPRounding.Proofs.LP.Session
import LPRounding.Proofs.LP.Translation
import LPRounding.Proofs.Run.Memoryless
import LPRounding.Proofs.Run.Anew
import LPRounding.Proofs.Multiway.Simplex
import LPRounding.Proofs.Multiway.Weight
import LPRounding.Proofs.Graph.Requirements
import LPRounding.Proofs.SteinerNetwork.Pruning
import LPRounding.Proofs.Run.Verdict
import LPRounding.Proofs.SteinerNetwork.Verdict
import LPRounding.Proofs.BoundedTree.Verdict
import LPRounding.Proofs.SteinerTree.Verdict
import LPRounding.Proofs.Flow.Least
import LPRounding.Proofs.SteinerTree.Merging
import LPRounding.Proofs.TreeAugmentation.Rows
import LPRounding.Proofs.SteinerTree.Generation
import LPRounding.Proofs.Multiway.Relaxation
import LPRounding.Proofs.Run.Strategies
import LPRounding.Proofs.LP.Reading
import LPRounding.Proofs.Run.Pass
