import FinalityGrandpa.Chain
import FinalityGrandpa.VoteGraph.Basic
import FinalityGrandpa.VoteGraph.WellFormed
import FinalityGrandpa.VoteGraph.FindContaining
import FinalityGrandpa.VoteGraph.Branch
import FinalityGrandpa.VoteGraph.Insert
import FinalityGrandpa.VoteGraph.Reachable
import FinalityGrandpa.VoteGraph.Descendents
import FinalityGrandpa.Voter.VotingRound
import FinalityGrandpa.Voter.Effects
import FinalityGrandpa.Voter.Prevote
import FinalityGrandpa.Voter.Run
import FinalityGrandpa.Voter.Phases
import FinalityGrandpa.Voter.Sends
import FinalityGrandpa.Voter.Targets
import FinalityGrandpa.Voter.Provenance
import FinalityGrandpa.Voter.Panics
