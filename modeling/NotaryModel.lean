import NotaryModel.Agreement.Certificates
import NotaryModel.Agreement.ClientFinished
import NotaryModel.Agreement.Cutting
import NotaryModel.Agreement.Hashes
import NotaryModel.Agreement.KeySchedule
import NotaryModel.Agreement.KeyShare
import NotaryModel.Agreement.Numbering
import NotaryModel.Agreement.Records
import NotaryModel.Agreement.ServerHello
import NotaryModel.Agreement.Session
import NotaryModel.Common.Theorems.Bundle
import NotaryModel.Guest.Theorems.AppRecords
import NotaryModel.Guest.Theorems.Certificate
import NotaryModel.Guest.Theorems.Claim
import NotaryModel.Guest.Theorems.Der
import NotaryModel.Guest.Theorems.Hostname
import NotaryModel.Guest.Theorems.Padding
import NotaryModel.Guest.Theorems.Transcripts
import NotaryModel.Guest.Theorems.Unchunk
import NotaryModel.Notary.Theorems.AesOrder
import NotaryModel.Notary.Theorems.Bristol
import NotaryModel.Notary.Theorems.Capture
import NotaryModel.Notary.Theorems.Commits
import NotaryModel.Notary.Theorems.EcdhInput
import NotaryModel.Notary.Theorems.FailedDecrypt
import NotaryModel.Notary.Theorems.Gcm
import NotaryModel.Notary.Theorems.GenSha256Compress
import NotaryModel.Notary.Theorems.GeneratedCircuit
import NotaryModel.Notary.Theorems.Ghash
import NotaryModel.Notary.Theorems.Handover
import NotaryModel.Notary.Theorems.Hkdf
import NotaryModel.Notary.Theorems.IkmShares
import NotaryModel.Notary.Theorems.Indexed
import NotaryModel.Notary.Theorems.Integrity
import NotaryModel.Notary.Theorems.LeakyEcdh
import NotaryModel.Notary.Theorems.Nonces
import NotaryModel.Notary.Theorems.NotaryCommit
import NotaryModel.Notary.Theorems.Plain
import NotaryModel.Notary.Theorems.Secrecy
import NotaryModel.Notary.Theorems.Setup
import NotaryModel.Notary.Theorems.TwoPartyEncrypter
import NotaryModel.Notary.Theorems.TwoPcTraffic
import NotaryModel.TwoParty.Exchange
