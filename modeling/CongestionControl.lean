import CongestionControl.Mysticeti.Proofs.CertificationProofs
import CongestionControl.Mysticeti.Proofs.ClockClosedFormProofs
import CongestionControl.Mysticeti.Proofs.BackPressureProofs
import CongestionControl.Mysticeti.Proofs.CryptoProofs
import CongestionControl.Mysticeti.Proofs.DirectSkipProofs
import CongestionControl.Mysticeti.Proofs.EpochCloseProofs
import CongestionControl.Mysticeti.Proofs.ExecutionProofs
import CongestionControl.Mysticeti.Proofs.FinalizationExactProofs
import CongestionControl.Mysticeti.Proofs.LinearizerProofs
import CongestionControl.Mysticeti.Proofs.MachineCommitteeProofs
import CongestionControl.Mysticeti.Proofs.OrderingProofs
import CongestionControl.Mysticeti.Proofs.RangeMapCallsProofs
import CongestionControl.Mysticeti.Proofs.SupportProofs
import CongestionControl.Mysticeti.Proofs.SynchronizerProofs
import CongestionControl.Mysticeti.Proofs.UniversalCommitterProofs
import CongestionControl.Mysticeti.Proofs.WalProofs
import CongestionControl.Pevm.Proofs.AccessSetsProofs
import CongestionControl.Pevm.Proofs.CommitProofs
import CongestionControl.Pevm.Proofs.FairBatchProofs
import CongestionControl.Pevm.Proofs.GraphGatingProofs
import CongestionControl.Pevm.Proofs.GraphLiveProofs
import CongestionControl.Pevm.Proofs.GreedyIntegratorProofs
import CongestionControl.Pevm.Proofs.GreedySchedulerProofs
import CongestionControl.Pevm.Proofs.MemoryHistoryProofs
import CongestionControl.Pevm.Proofs.NonceTrackerProofs
import CongestionControl.Pevm.Proofs.ReplicaProofs
import CongestionControl.Pevm.Proofs.ScheduleProofs
import CongestionControl.Pevm.Proofs.SchedulerStepsProofs
import CongestionControl.Pevm.Proofs.SerializerProofs
import CongestionControl.Pevm.Proofs.StaleAbortProofs
import CongestionControl.Pevm.Proofs.TryExecuteProofs
import CongestionControl.Pevm.Proofs.WriteOrderProofs
